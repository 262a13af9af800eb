import Mathlib.Algebra.BigOperators.Group.List.Basic
import Mathlib.Algebra.GroupWithZero.Nat

/-!
# The dynamic tensor allocator

`ggml_dyn_tallocr` of ggml-alloc.c.  It hands out addresses without memory behind them: a
chunk becomes a backend buffer of `max_size` bytes later.

The lemmas count the free blocks that a byte lies in (`cover`).  Every operation moves the
bytes of one region in or out of the free blocks and leaves all other counts alone, so a
byte that is in at most one free block stays so.

Sizes and offsets are natural numbers; only the subtraction from a block that is too small,
which the last chunk allows, is taken in 64 bits.
-/

namespace LlamaCpp

open List Option

abbrev ggmlVbufferMaxChunks : Nat := 16

abbrev maxFreeBlocks : Nat := 256

abbrev sizeMax : Nat := 2 ^ 64 - 1

structure BufferAddress where
  chunk : Nat := 0
  offset : Nat := 0
deriving DecidableEq

structure FreeBlock where
  offset : Nat
  size : Nat

structure TallocrChunk where
  freeBlocks : List FreeBlock
  maxSize : Nat := 0

structure DynTallocr where
  alignment : Nat
  maxChunkSize : Nat
  chunks : List TallocrChunk := []

/-- `aligned_offset` with no buffer. -/
def alignedOffset (offset alignment : Nat) : Nat :=
  offset + (alignment - offset % alignment) % alignment

/-! ## Free blocks -/

/-- The block that remains behind an allocation; the size is taken in 64 bits. -/
def FreeBlock.shrink (b : FreeBlock) (size : Nat) : FreeBlock :=
  { offset := b.offset + size
    size := if size ≤ b.size then b.size - size else b.size + 2 ^ 64 - size }

namespace TallocrChunk

/-- `ggml_dyn_tallocr_insert_block`; `none` if the blocks are used up. -/
def insertBlock (blocks : List FreeBlock) (offset size : Nat) : Option (List FreeBlock) :=
  if blocks.length < maxFreeBlocks then
    some (blocks.takeWhile (·.offset < offset) ++
      ⟨offset, size⟩ :: blocks.dropWhile (·.offset < offset))
  else none

def joinNext (b : FreeBlock) : List FreeBlock → List FreeBlock
  | [] => [b]
  | next :: rest =>
    if b.offset + b.size = next.offset then { b with size := b.size + next.size } :: rest
    else b :: next :: rest

/-- Merge with the previous block; `before` has the blocks in front, the last one first. -/
def joinPrev (before : List FreeBlock) (b : FreeBlock) : List FreeBlock :=
  match before with
  | [] => [b]
  | prev :: before =>
    if prev.offset + prev.size = b.offset then
      before.reverse ++ [{ prev with size := prev.size + b.size }]
    else (prev :: before).reverse ++ [b]

/-- The loop of `ggml_dyn_tallocr_free_bytes`; `none` if no block touches the region. -/
def mergeBytes (offset size : Nat) : List FreeBlock → List FreeBlock → Option (List FreeBlock)
  | _, [] => none
  | before, b :: rest =>
    -- the region is at the end of the block
    if b.offset + b.size = offset then
      some (before.reverse ++ joinNext { b with size := b.size + size } rest)
    -- the region is at the beginning of the block
    else if offset + size = b.offset then
      some (joinPrev before { offset := offset, size := b.size + size } ++ rest)
    else mergeBytes offset size (b :: before) rest

/-- `ggml_dyn_tallocr_free_bytes` in a chunk. -/
def freeBytes (chunk : TallocrChunk) (offset size : Nat) : Option TallocrChunk :=
  match mergeBytes offset size [] chunk.freeBlocks with
  | some blocks => some { chunk with freeBlocks := blocks }
  | none => (insertBlock chunk.freeBlocks offset size).map fun blocks =>
    { chunk with freeBlocks := blocks }

/-- The best fit among the blocks but the last one. -/
def bestFit (size : Nat) (chunk : TallocrChunk) : Option Nat :=
  (chunk.freeBlocks.dropLast.zipIdx.foldl (fun (best : Option Nat × Nat) block =>
    if size ≤ block.1.size ∧ block.1.size ≤ best.2 then (some block.2, block.1.size) else best)
    (none, sizeMax)).1

/-- `reuse_factor`: negative if the chunk has to grow. -/
def reuseFactor (size : Nat) (chunk : TallocrChunk) (block : FreeBlock) : Int :=
  ((chunk.maxSize : Int) - block.offset - size).bmod (2 ^ 64)

/-- Take `size` bytes from the front of block `i`. -/
def take (chunk : TallocrChunk) (i size : Nat) (block : FreeBlock) : TallocrChunk :=
  let rest := block.shrink size
  { freeBlocks :=
      -- remove block if empty
      if rest.size = 0 then chunk.freeBlocks.eraseIdx i else chunk.freeBlocks.set i rest
    maxSize := max chunk.maxSize (block.offset + size) }

end TallocrChunk

namespace DynTallocr

open TallocrChunk

variable (talloc : DynTallocr)

def new (alignment maxBufferSize : Nat) : DynTallocr :=
  { alignment := alignment, maxChunkSize := min maxBufferSize (sizeMax / 2) }

def reset : DynTallocr := { talloc with chunks := [] }

/-- `ggml_dyn_tallocr_new_chunk`; `none` if there is no room for another one. -/
def newChunk (minSize : Nat) : Option DynTallocr :=
  if ggmlVbufferMaxChunks ≤ talloc.chunks.length then none
  else
    let size := if talloc.chunks.length = ggmlVbufferMaxChunks - 1 then sizeMax / 2
      else max minSize talloc.maxChunkSize
    some { talloc with chunks := talloc.chunks ++ [{ freeBlocks := [⟨0, size⟩] }] }

/-- The best fit besides the last block, within any chunk; a later chunk goes first. -/
def bestBlock (size : Nat) : Option (Nat × Nat) :=
  talloc.chunks.zipIdx.foldl (fun best chunk =>
    match chunk.1.bestFit size with
    | some i => some (chunk.2, i)
    | none => best) none

/-- The best last block; this may grow the size of a chunk. -/
def bestLast (size : Nat) : Option (Nat × Nat) :=
  (talloc.chunks.zipIdx.foldl (fun (best : Option (Nat × Nat) × Int) chunk =>
    match chunk.1.freeBlocks.getLast? with
    | none => best
    | some block =>
      let reuse := reuseFactor size chunk.1 block
      let betterReuse := best.2 < 0 ∧ best.2 < reuse
      let betterFit := 0 ≤ reuse ∧ reuse < best.2
      if size ≤ block.size ∧ (betterReuse ∨ betterFit) then
        (some (chunk.2, chunk.1.freeBlocks.length - 1), reuse)
      else best)
    (none, -(2 ^ 63))).1

/-- Take `size` bytes from the front of block `i` of chunk `c`. -/
def takeAt (c i size : Nat) : Option (BufferAddress × DynTallocr) := do
  let chunk ← talloc.chunks[c]?
  let block ← chunk.freeBlocks[i]?
  return (⟨c, block.offset⟩, { talloc with chunks := talloc.chunks.set c (chunk.take i size block) })

/-- `ggml_dyn_tallocr_alloc`; `none` if it ends the process. -/
def alloc (size : Nat) : Option (BufferAddress × DynTallocr) :=
  let size := alignedOffset size talloc.alignment
  match (talloc.bestBlock size).or (talloc.bestLast size) with
  | some (c, i) => talloc.takeAt c i size
  | none => do
      -- none of the existing chunks have enough space left
      let talloc ← talloc.newChunk size
      talloc.takeAt (talloc.chunks.length - 1) 0 size

/-- `ggml_dyn_tallocr_free_bytes`; `none` if it ends the process. -/
def freeBytes (addr : BufferAddress) (size : Nat) : Option DynTallocr := do
  let size := alignedOffset size talloc.alignment
  let chunk ← talloc.chunks[addr.chunk]?
  let chunk ← chunk.freeBytes addr.offset size
  return { talloc with chunks := talloc.chunks.set addr.chunk chunk }

def maxSize (chunk : Nat) : Nat := (talloc.chunks[chunk]?.map (·.maxSize)).getD 0

end DynTallocr

/-! ## Counting the free blocks over a byte -/

/-- 1 for the bytes of a region, else 0. -/
def within (offset size x : Nat) : Nat := if offset ≤ x ∧ x < offset + size then 1 else 0

theorem within_append (offset a b x : Nat) :
    within offset (a + b) x = within offset a x + within (offset + a) b x := by
  unfold within
  split_ifs <;> omega

theorem within_le_one (offset size x : Nat) : within offset size x ≤ 1 := by
  unfold within
  split <;> omega

/-- The number of blocks that byte `x` lies in. -/
def coverOf (blocks : List FreeBlock) (x : Nat) : Nat :=
  (blocks.map fun b => within b.offset b.size x).sum

@[simp] theorem coverOf_nil (x : Nat) : coverOf [] x = 0 := rfl

@[simp] theorem coverOf_cons (b : FreeBlock) (blocks : List FreeBlock) (x : Nat) :
    coverOf (b :: blocks) x = within b.offset b.size x + coverOf blocks x := by
  simp [coverOf]

@[simp] theorem coverOf_append (l r : List FreeBlock) (x : Nat) : coverOf (l ++ r) x = coverOf l x + coverOf r x := by
  simp [coverOf]

@[simp] theorem coverOf_reverse (l : List FreeBlock) (x : Nat) : coverOf l.reverse x = coverOf l x := by
  simp [coverOf, sum_reverse]

namespace TallocrChunk

variable {blocks : List FreeBlock} {size : Nat}

theorem coverOf_insertBlock {blocks' : List FreeBlock} {offset : Nat}
    (h : insertBlock blocks offset size = some blocks') (x : Nat) :
    coverOf blocks' x = coverOf blocks x + within offset size x := by
  unfold insertBlock at h
  split at h
  · obtain rfl := some.inj h
    have hsplit : coverOf blocks x = coverOf (blocks.takeWhile (·.offset < offset)) x +
        coverOf (blocks.dropWhile (·.offset < offset)) x := by
      rw [← coverOf_append, takeWhile_append_dropWhile]
    rw [coverOf_append, coverOf_cons, hsplit]
    dsimp only
    omega
  · cases h

theorem coverOf_joinNext (b : FreeBlock) (rest : List FreeBlock) (x : Nat) :
    coverOf (joinNext b rest) x = within b.offset b.size x + coverOf rest x := by
  cases rest with
  | nil => rfl
  | cons next rest =>
    by_cases h : b.offset + b.size = next.offset
    · have hjoin : joinNext b (next :: rest) = { b with size := b.size + next.size } :: rest :=
        if_pos h
      rw [hjoin, coverOf_cons, coverOf_cons, within_append, h]
      dsimp only
      omega
    · have hjoin : joinNext b (next :: rest) = b :: next :: rest := if_neg h
      rw [hjoin, coverOf_cons]

theorem coverOf_joinPrev (before : List FreeBlock) (b : FreeBlock) (x : Nat) :
    coverOf (joinPrev before b) x = coverOf before x + within b.offset b.size x := by
  cases before with
  | nil => simp [joinPrev]
  | cons prev before =>
    unfold joinPrev
    dsimp only
    split
    · next h =>
      rw [coverOf_append, coverOf_reverse, coverOf_cons, coverOf_cons, coverOf_nil, within_append, h]
      dsimp only
      omega
    · rw [coverOf_append, coverOf_reverse, coverOf_cons b, coverOf_nil, Nat.add_zero]

theorem coverOf_mergeBytes {offset : Nat} :
    ∀ {before blocks' : List FreeBlock}, mergeBytes offset size before blocks = some blocks' →
      ∀ x, coverOf blocks' x = coverOf before x + coverOf blocks x + within offset size x := by
  induction blocks with
  | nil => intro before blocks' h; cases h
  | cons b rest ih =>
    intro before blocks' h x
    unfold mergeBytes at h
    split at h
    · next hend =>
      obtain rfl := some.inj h
      rw [coverOf_append, coverOf_reverse, coverOf_joinNext, coverOf_cons, within_append, hend]
      dsimp only
      omega
    · split at h
      · next hbegin =>
        obtain rfl := some.inj h
        have hsize : b.size + size = size + b.size := Nat.add_comm _ _
        rw [coverOf_append, coverOf_joinPrev, coverOf_cons, hsize, within_append, hbegin]
        dsimp only
        omega
      · rw [ih h x, coverOf_cons, coverOf_cons]
        omega

theorem coverOf_freeBytes {chunk chunk' : TallocrChunk} {offset : Nat}
    (h : chunk.freeBytes offset size = some chunk') (x : Nat) :
    coverOf chunk'.freeBlocks x = coverOf chunk.freeBlocks x + within offset size x := by
  unfold TallocrChunk.freeBytes at h
  split at h
  · next blocks hmerge =>
    obtain rfl := some.inj h
    rw [coverOf_mergeBytes hmerge x, coverOf_nil, Nat.zero_add]
  · obtain ⟨blocks, hinsert, rfl⟩ := map_eq_some_iff.mp h
    exact coverOf_insertBlock hinsert x

theorem coverOf_getElem {i : Nat} {b : FreeBlock} (h : blocks[i]? = some b) (x : Nat) :
    coverOf blocks x = coverOf (blocks.eraseIdx i) x + within b.offset b.size x := by
  induction blocks generalizing i with
  | nil => cases h
  | cons a blocks ih =>
    cases i with
    | zero =>
      obtain rfl := some.inj h
      rw [eraseIdx_cons_zero, coverOf_cons, Nat.add_comm]
    | succ i =>
      rw [eraseIdx_cons_succ, coverOf_cons, coverOf_cons, ih h]
      omega

theorem coverOf_set {i : Nat} (hi : i < blocks.length) (b : FreeBlock) (x : Nat) :
    coverOf (blocks.set i b) x = coverOf (blocks.eraseIdx i) x + within b.offset b.size x := by
  have hget : (blocks.set i b)[i]? = some b := by simp [hi]
  rw [coverOf_getElem hget, eraseIdx_set_eq]

/-- An allocation from a block that is large enough. -/
theorem coverOf_take {chunk : TallocrChunk} {i : Nat} {block : FreeBlock}
    (h : chunk.freeBlocks[i]? = some block) (x : Nat) : coverOf (chunk.take i size block).freeBlocks x =
      coverOf (chunk.freeBlocks.eraseIdx i) x + within (block.shrink size).offset (block.shrink size).size x := by
  have hi : i < chunk.freeBlocks.length := (List.getElem?_eq_some_iff.mp h).1
  unfold take
  dsimp only
  split
  · next hzero =>
    have hnone : within (block.shrink size).offset (block.shrink size).size x = 0 := by
      unfold within
      rw [hzero, if_neg (by omega)]
    rw [hnone, Nat.add_zero]
  · exact coverOf_set hi _ x

end TallocrChunk

namespace DynTallocr

open TallocrChunk

variable {talloc talloc' : DynTallocr} {size c i : Nat} {addr p : BufferAddress}
  {chunk : TallocrChunk}

/-! ## The search for a block -/

/-- The search finds a block that is large enough. -/
def Fits (talloc : DynTallocr) (size c i : Nat) : Prop :=
  ∃ chunk block, talloc.chunks[c]? = some chunk ∧ chunk.freeBlocks[i]? = some block ∧
    size ≤ block.size

theorem bestFit_fits (h : chunk.bestFit size = some i) :
    ∃ block, chunk.freeBlocks[i]? = some block ∧ size ≤ block.size := by
  unfold bestFit at h
  refine List.foldlRecOn (motive := fun best : Option Nat × Nat => ∀ i, best.1 = some i →
    ∃ block, chunk.freeBlocks[i]? = some block ∧ size ≤ block.size) _ _ (by simp)
    (fun best hbest b hb => ?_) i h
  split_ifs with hfit
  · rintro j hj
    obtain rfl := some.inj hj
    refine ⟨b.1, ?_, hfit.1⟩
    obtain ⟨hlt, hget⟩ := mem_zipIdx' hb
    rw [length_dropLast] at hlt
    rw [hget, getElem_dropLast]
    exact getElem?_eq_getElem (by omega)
  · exact hbest

theorem bestBlock_fits (h : talloc.bestBlock size = some (c, i)) : talloc.Fits size c i := by
  unfold bestBlock at h
  refine List.foldlRecOn (motive := fun best : Option (Nat × Nat) => ∀ c i, best = some (c, i) →
    talloc.Fits size c i) _ _ (by simp) (fun best hbest ch hch => ?_) c i h
  cases hfit : ch.1.bestFit size with
  | none => exact hbest
  | some j =>
    rintro c i heq
    obtain ⟨rfl, rfl⟩ := Prod.mk.inj (some.inj heq)
    obtain ⟨block, hblock, hsize⟩ := bestFit_fits hfit
    exact ⟨ch.1, block, mk_mem_zipIdx_iff_getElem?.mp hch, hblock, hsize⟩

theorem bestLast_fits (h : talloc.bestLast size = some (c, i)) : talloc.Fits size c i := by
  unfold bestLast at h
  refine List.foldlRecOn (motive := fun best : Option (Nat × Nat) × Int => ∀ c i,
    best.1 = some (c, i) → talloc.Fits size c i) _ _ (by simp) (fun best hbest ch hch => ?_) c i h
  cases hlast : ch.1.freeBlocks.getLast? with
  | none => exact hbest
  | some block =>
    dsimp only
    split_ifs with hfit
    · rintro c i heq
      obtain ⟨rfl, rfl⟩ := Prod.mk.inj (some.inj heq)
      refine ⟨ch.1, block, mk_mem_zipIdx_iff_getElem?.mp hch, ?_, hfit.1⟩
      rw [← getLast?_eq_getElem?]
      exact hlast
    · exact hbest

/-! ## What the operations do to the free blocks -/

/-- The number of free blocks that a byte lies in. -/
def cover (talloc : DynTallocr) (p : BufferAddress) : Nat :=
  match talloc.chunks[p.chunk]? with
  | none => 0
  | some chunk => coverOf chunk.freeBlocks p.offset

/-- 1 for the bytes of the region at `addr`, else 0. -/
def inRegion (addr : BufferAddress) (size : Nat) (p : BufferAddress) : Nat :=
  if p.chunk = addr.chunk then within addr.offset size p.offset else 0

theorem inRegion_le_one (addr : BufferAddress) (size : Nat) (p : BufferAddress) : inRegion addr size p ≤ 1 := by
  unfold inRegion
  split
  · exact within_le_one ..
  · exact Nat.zero_le 1

theorem cover_eq (h : talloc.chunks[p.chunk]? = some chunk) : talloc.cover p = coverOf chunk.freeBlocks p.offset := by
  rw [cover, h]

theorem cover_eq_zero (h : talloc.chunks.length ≤ p.chunk) : talloc.cover p = 0 := by
  rw [cover, getElem?_eq_none h]

theorem cover_set (hc : c < talloc.chunks.length) :
    ({ talloc with chunks := talloc.chunks.set c chunk } : DynTallocr).cover p =
      if p.chunk = c then coverOf chunk.freeBlocks p.offset else talloc.cover p := by
  unfold cover
  split_ifs with h
  · subst h
    rw [getElem?_set_self hc]
  · rw [getElem?_set_ne (Ne.symm h)]

/-- What an allocation of `size` bytes does: its bytes were free or lie in a new chunk. -/
structure Allocated (talloc : DynTallocr) (size : Nat) (addr : BufferAddress)
    (talloc' : DynTallocr) : Prop where
  alignment : talloc'.alignment = talloc.alignment
  chunk_lt : addr.chunk < talloc'.chunks.length
  length_le : talloc.chunks.length ≤ talloc'.chunks.length
  cover_old : ∀ p : BufferAddress, p.chunk < talloc.chunks.length →
    talloc'.cover p + inRegion addr size p = talloc.cover p
  cover_new : ∀ p : BufferAddress, talloc.chunks.length ≤ p.chunk →
    talloc'.cover p + inRegion addr size p ≤ 1

theorem takeAt_cover (h : talloc.takeAt c i size = some (addr, talloc')) :
    ∃ chunk block, talloc.chunks[c]? = some chunk ∧ chunk.freeBlocks[i]? = some block ∧
      addr = ⟨c, block.offset⟩ ∧ talloc'.alignment = talloc.alignment ∧
      talloc'.chunks.length = talloc.chunks.length ∧ ∀ p, talloc'.cover p =
        if p.chunk = c then coverOf (chunk.take i size block).freeBlocks p.offset
        else talloc.cover p := by
  obtain ⟨chunk, hchunk, h⟩ := bind_eq_some_iff.mp h
  obtain ⟨block, hblock, h⟩ := bind_eq_some_iff.mp h
  obtain ⟨rfl, rfl⟩ := Prod.mk.inj (some.inj h)
  have hc : c < talloc.chunks.length := (List.getElem?_eq_some_iff.mp hchunk).1
  exact ⟨chunk, block, hchunk, hblock, rfl, rfl, by simp, fun p => cover_set hc⟩

theorem takeAt_allocated (hfits : talloc.Fits size c i)
    (h : talloc.takeAt c i size = some (addr, talloc')) : Allocated talloc size addr talloc' := by
  obtain ⟨chunk, block, hchunk, hblock, hsize⟩ := hfits
  have hc : c < talloc.chunks.length := (List.getElem?_eq_some_iff.mp hchunk).1
  obtain ⟨chunk', block', hchunk', hblock', rfl, halign, hlen, hcover⟩ := takeAt_cover h
  obtain rfl := some.inj (hchunk.symm.trans hchunk')
  obtain rfl := some.inj (hblock.symm.trans hblock')
  have hlt : c < talloc'.chunks.length := by omega
  refine ⟨halign, hlt, by omega, fun p hp => ?_, fun p hp => ?_⟩
  · rw [hcover]
    unfold inRegion
    by_cases hpc : p.chunk = c
    · subst hpc
      have hrest : (block.shrink size).size = block.size - size := if_pos hsize
      have hsplit := within_append block.offset size (block.size - size) p.offset
      rw [Nat.add_sub_cancel' hsize] at hsplit
      rw [if_pos rfl, if_pos rfl, cover_eq hchunk, coverOf_take hblock, coverOf_getElem hblock, hrest, hsplit]
      dsimp only [FreeBlock.shrink]
      omega
    · rw [if_neg hpc, if_neg hpc, Nat.add_zero]
  · have hne : p.chunk ≠ c := by omega
    rw [hcover, if_neg hne, cover_eq_zero hp, inRegion, if_neg hne]
    exact Nat.zero_le 1

theorem newChunk_eq_some (h : talloc.newChunk size = some talloc') :
    ∃ room, talloc'.chunks = talloc.chunks ++ [{ freeBlocks := [⟨0, room⟩] }] ∧
      talloc'.alignment = talloc.alignment := by
  unfold newChunk at h
  split at h
  · cases h
  · obtain rfl := some.inj h
    exact ⟨_, rfl, rfl⟩

theorem alloc_allocated (h : talloc.alloc size = some (addr, talloc')) :
    Allocated talloc (alignedOffset size talloc.alignment) addr talloc' := by
  unfold DynTallocr.alloc at h
  dsimp only at h
  generalize alignedOffset size talloc.alignment = size at h ⊢
  split at h
  · next c i hbest =>
    refine takeAt_allocated ?_ h
    rcases or_eq_some_iff.mp hbest with hblock | ⟨-, hlast⟩
    · exact bestBlock_fits hblock
    · exact bestLast_fits hlast
  · obtain ⟨grown, hnew, htake⟩ := bind_eq_some_iff.mp h
    obtain ⟨room, hchunks, hgrown⟩ := newChunk_eq_some hnew
    obtain ⟨chunk, block, hchunk, hblock, rfl, halign, hlen, hcover⟩ := takeAt_cover htake
    have hlast : grown.chunks.length - 1 = talloc.chunks.length := by simp [hchunks]
    rw [hlast] at hchunk hcover ⊢
    rw [hchunks, getElem?_concat_length] at hchunk
    obtain rfl := some.inj hchunk
    obtain rfl : (⟨0, room⟩ : FreeBlock) = block := some.inj hblock
    have hlen' : talloc'.chunks.length = talloc.chunks.length + 1 := by simp [hlen, hchunks]
    have hlt : talloc.chunks.length < talloc'.chunks.length := by omega
    refine ⟨halign.trans hgrown, hlt, by omega, fun p hp => ?_, fun p hp => ?_⟩
    · have hne : p.chunk ≠ talloc.chunks.length := by omega
      have hold : grown.cover p = talloc.cover p := by
        unfold cover
        rw [hchunks, getElem?_append_left hp]
      rw [hcover, if_neg hne, inRegion, if_neg hne, Nat.add_zero, hold]
    · rw [hcover]
      unfold inRegion
      split_ifs with hpc
      · rw [coverOf_take hblock]
        simp only [eraseIdx_cons_zero, coverOf_nil, Nat.zero_add, FreeBlock.shrink]
        unfold within
        split_ifs <;> omega
      · have hge : grown.chunks.length ≤ p.chunk := by omega
        rw [Nat.add_zero, cover_eq_zero hge]
        exact Nat.zero_le 1

/-- What freeing the bytes of a region does. -/
structure Freed (talloc : DynTallocr) (size : Nat) (addr : BufferAddress) (talloc' : DynTallocr) :
    Prop where
  alignment : talloc'.alignment = talloc.alignment
  length_eq : talloc'.chunks.length = talloc.chunks.length
  cover : ∀ p, talloc'.cover p = talloc.cover p + inRegion addr size p

theorem freeBytes_freed (h : talloc.freeBytes addr size = some talloc') :
    Freed talloc (alignedOffset size talloc.alignment) addr talloc' := by
  unfold DynTallocr.freeBytes at h
  generalize alignedOffset size talloc.alignment = size at h ⊢
  obtain ⟨chunk, hchunk, h⟩ := bind_eq_some_iff.mp h
  obtain ⟨chunk', hfree, h⟩ := bind_eq_some_iff.mp h
  obtain rfl := some.inj h
  have hc : addr.chunk < talloc.chunks.length := (List.getElem?_eq_some_iff.mp hchunk).1
  refine ⟨rfl, by simp, fun p => ?_⟩
  rw [cover_set hc, inRegion]
  split_ifs with hpc
  · rw [coverOf_freeBytes hfree, cover_eq (hpc ▸ hchunk)]
  · rfl

end DynTallocr

end LlamaCpp
