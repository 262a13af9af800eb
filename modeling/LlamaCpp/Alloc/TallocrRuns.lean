import LlamaCpp.Alloc.Aliasing
import LlamaCpp.Alloc.FreeBlocks
import LlamaCpp.Lib.Runs

/-!
# Runs of the dynamic allocator

Allocations and frees of live allocations, in any order.  Each byte of a chunk's first free
block, its extent, is at all times in one free block or in one live allocation.

A chunk is opened with room for the request that opens it, except for the sixteenth: it has
`SIZE_MAX/2` bytes whatever the request is.
-/

namespace LlamaCpp

open List Option

/-! ## A chunk -/

/-- The free blocks of a chunk and the regions allocated in it share out its extent. -/
structure ChunkInv (alignment : Nat) (chunk : TallocrChunk) (regions : List FreeBlock)
    (extent : Nat) : Prop where
  separated : Separated chunk.freeBlocks
  free_aligned : ∀ b ∈ chunk.freeBlocks, alignment ∣ b.offset
  aligned : ∀ r ∈ regions, alignment ∣ r.offset
  pos : ∀ r ∈ regions, 0 < r.size
  inside : ∀ r ∈ regions, r.offset + r.size ≤ chunk.maxSize
  covers : ∀ x, coverOf chunk.freeBlocks x + coverOf regions x = within 0 extent x
  extent_pos : 0 < extent

/-- What `ChunkInv` says about a chunk, without the counting. -/
structure ChunkSound (alignment : Nat) (chunk : TallocrChunk) (regions : List FreeBlock)
    (extent : Nat) : Prop where
  /-- Free blocks are sorted, disjoint and not adjacent. -/
  sorted : chunk.freeBlocks.Pairwise FreeBlock.Before
  pos : ∀ b ∈ chunk.freeBlocks ++ regions, 0 < b.size
  aligned : ∀ r ∈ regions, alignment ∣ r.offset
  apart : regions.Pairwise FreeBlock.Apart
  apart_free : ∀ r ∈ regions, ∀ b ∈ chunk.freeBlocks, r.Apart b
  inside : ∀ r ∈ regions, r.offset + r.size ≤ chunk.maxSize
  within_extent : ∀ b ∈ chunk.freeBlocks ++ regions, b.offset + b.size ≤ extent
  bytes : (regions.map (·.size)).sum + (chunk.freeBlocks.map (·.size)).sum = extent
  released : regions = [] → chunk.freeBlocks = [⟨0, extent⟩]

namespace ChunkInv

variable {alignment extent offset size i : Nat} {chunk chunk' : TallocrChunk}
  {regions regions' : List FreeBlock}

theorem sound (h : ChunkInv alignment chunk regions extent) : ChunkSound alignment chunk regions extent := by
  have hcover : ∀ x, coverOf (chunk.freeBlocks ++ regions) x = within 0 extent x := fun x => by
    rw [coverOf_append]
    exact h.covers x
  have hpos : ∀ b ∈ chunk.freeBlocks ++ regions, 0 < b.size := fun b hb => by
    rcases List.mem_append.mp hb with hb | hb
    · exact h.separated.pos b hb
    · exact h.pos b hb
  have hapart := pairwise_apart hpos fun x => (hcover x).trans_le (within_le_one ..)
  obtain ⟨-, hregions, hboth⟩ := pairwise_append.mp hapart
  have hle : ∀ b ∈ chunk.freeBlocks ++ regions, b.offset + b.size ≤ extent := fun b hb =>
    end_le_of_cover (hpos b hb) fun x => (within_le_coverOf hb x).trans_eq (hcover x)
  have hbytes := sum_coverOf hle
  have hextent : ∑ x ∈ Finset.range extent, within 0 extent x = extent :=
    sum_within (b := ⟨0, extent⟩) (by simp)
  rw [Finset.sum_congr rfl fun x _ => hcover x, hextent, map_append, sum_append] at hbytes
  exact {
    sorted := h.separated.sorted
    pos := hpos
    aligned := h.aligned
    apart := hregions
    apart_free := fun r hr b hb => (hboth b hb r hr).symm
    inside := h.inside
    within_extent := hle
    bytes := by omega
    released := fun hnone => h.separated.eq_singleton h.extent_pos fun x => by
      have hx := h.covers x
      rw [hnone, coverOf_nil, Nat.add_zero] at hx
      exact hx }

theorem opened (hextent : 0 < extent) : ChunkInv alignment { freeBlocks := [⟨0, extent⟩] } [] extent where
  separated := .singleton hextent
  free_aligned := by simp
  aligned := by simp
  pos := by simp
  inside := by simp
  covers := by simp
  extent_pos := hextent

theorem take {block : FreeBlock} (h : ChunkInv alignment chunk regions extent)
    (hblock : chunk.freeBlocks[i]? = some block) (hsize : size ≤ block.size) (hpos : 0 < size)
    (haligned : alignment ∣ size) :
    ChunkInv alignment (chunk.take i size block) (⟨block.offset, size⟩ :: regions) extent := by
  have hmem : block ∈ chunk.freeBlocks := mem_of_getElem? hblock
  have hrest : (block.shrink size).size = block.size - size := if_pos hsize
  have hmax : (chunk.take i size block).maxSize = max chunk.maxSize (block.offset + size) := rfl
  constructor
  · exact TallocrChunk.separated_take h.separated hblock hsize
  · intro b hb
    have hshrunk : alignment ∣ (block.shrink size).offset :=
      Nat.dvd_add (h.free_aligned block hmem) haligned
    unfold TallocrChunk.take at hb
    dsimp only at hb
    split at hb
    · exact h.free_aligned b (mem_of_mem_eraseIdx hb)
    · rcases mem_or_eq_of_mem_set hb with hb | rfl
      · exact h.free_aligned b hb
      · exact hshrunk
  · intro r hr
    cases hr with
    | head => exact h.free_aligned block hmem
    | tail _ hr => exact h.aligned r hr
  · intro r hr
    cases hr with
    | head => exact hpos
    | tail _ hr => exact h.pos r hr
  · intro r hr
    rw [hmax]
    cases hr with
    | head => exact Nat.le_max_right ..
    | tail _ hr => exact (h.inside r hr).trans (Nat.le_max_left ..)
  · intro x
    have hx := h.covers x
    have hsplit := within_append block.offset size (block.size - size) x
    rw [Nat.add_sub_cancel' hsize] at hsplit
    rw [TallocrChunk.coverOf_getElem hblock, hsplit] at hx
    rw [TallocrChunk.coverOf_take hblock, coverOf_cons, hrest]
    dsimp only [FreeBlock.shrink]
    omega
  · exact h.extent_pos

/-- Freeing a region: the regions that stay are the ones that were there without its bytes. -/
theorem freeBytes (h : ChunkInv alignment chunk regions extent) (hsize : 0 < size)
    (haligned : alignment ∣ offset)
    (hcover : ∀ x, coverOf regions x = coverOf regions' x + within offset size x)
    (hstay : ∀ r ∈ regions', alignment ∣ r.offset ∧ 0 < r.size ∧ r.offset + r.size ≤ chunk.maxSize)
    (hfree : chunk.freeBytes offset size = some chunk') :
    ChunkInv alignment chunk' regions' extent := by
  have hapart : ∀ b ∈ chunk.freeBlocks, FreeBlock.Apart ⟨offset, size⟩ b := fun b hb => by
    refine apart_of_within hsize (h.separated.pos b hb) fun x => ?_
    have hx := h.covers x
    have hbx := within_le_coverOf hb x
    have hle := within_le_one 0 extent x
    rw [hcover] at hx
    dsimp only
    omega
  constructor
  · exact TallocrChunk.separated_freeBytes h.separated hsize hapart hfree
  · exact TallocrChunk.offset_freeBytes haligned h.free_aligned hfree
  · exact fun r hr => (hstay r hr).1
  · exact fun r hr => (hstay r hr).2.1
  · rw [TallocrChunk.freeBytes_maxSize hfree]
    exact fun r hr => (hstay r hr).2.2
  · intro x
    have hx := h.covers x
    rw [hcover] at hx
    rw [TallocrChunk.coverOf_freeBytes hfree]
    omega
  · exact h.extent_pos

/-- Regions are counted and looked up; their order does not matter. -/
theorem congr (h : ChunkInv alignment chunk regions extent) (hsub : ∀ r ∈ regions', r ∈ regions)
    (hcover : ∀ x, coverOf regions x = coverOf regions' x) :
    ChunkInv alignment chunk regions' extent :=
  { h with
    aligned := fun r hr => h.aligned r (hsub r hr)
    pos := fun r hr => h.pos r (hsub r hr)
    inside := fun r hr => h.inside r (hsub r hr)
    covers := fun x => hcover x ▸ h.covers x }

end ChunkInv

/-! ## The allocator -/

/-- A live allocation; the size is rounded up to the alignment. -/
structure Allocation where
  addr : BufferAddress
  size : Nat
deriving DecidableEq

/-- The part of `live` that is in chunk `c`. -/
def regionsOf (live : List Allocation) (c : Nat) : List FreeBlock :=
  live.filterMap fun r => if r.addr.chunk = c then some ⟨r.addr.offset, r.size⟩ else none

theorem regionsOf_cons (r : Allocation) (live : List Allocation) (c : Nat) :
    regionsOf (r :: live) c =
      if r.addr.chunk = c then ⟨r.addr.offset, r.size⟩ :: regionsOf live c else regionsOf live c := by
  unfold regionsOf
  rw [filterMap_cons]
  by_cases h : r.addr.chunk = c
  · simp [h]
  · simp [h]

theorem mem_regionsOf {live : List Allocation} {c : Nat} {b : FreeBlock} :
    b ∈ regionsOf live c ↔ ∃ r ∈ live, r.addr.chunk = c ∧ b = ⟨r.addr.offset, r.size⟩ := by
  simp only [regionsOf, mem_filterMap, ite_none_right_eq_some, some.injEq, eq_comm (a := b)]

namespace DynTallocr

variable {talloc talloc' : DynTallocr} {size : Nat} {addr : BufferAddress}

/-- The extent of the next chunk. -/
def room (talloc : DynTallocr) (minSize : Nat) : Nat :=
  if talloc.chunks.length = ggmlVbufferMaxChunks - 1 then sizeMax / 2
  else max minSize talloc.maxChunkSize

/-- No block was found for the request: it opens a chunk. -/
def Opens (talloc : DynTallocr) (size : Nat) : Prop :=
  talloc.bestBlock size = none ∧ talloc.bestLast size = none

instance : Decidable (talloc.Opens size) := inferInstanceAs (Decidable (_ ∧ _))

theorem takeAt_eq_some {c i : Nat} (h : talloc.takeAt c i size = some (addr, talloc')) :
    ∃ chunk block, talloc.chunks[c]? = some chunk ∧ chunk.freeBlocks[i]? = some block ∧
      addr = ⟨c, block.offset⟩ ∧
      talloc' = { talloc with
        chunks := talloc.chunks.set c (chunk.take i size block) } := by
  obtain ⟨chunk, hchunk, h⟩ := bind_eq_some_iff.mp h
  obtain ⟨block, hblock, h⟩ := bind_eq_some_iff.mp h
  obtain ⟨rfl, rfl⟩ := Prod.mk.inj (some.inj h)
  exact ⟨chunk, block, hchunk, hblock, rfl, rfl⟩

/-- An allocation takes its bytes from a block that has them, or from a new chunk. -/
theorem alloc_cases (h : talloc.alloc size = some (addr, talloc')) :
    (¬ talloc.Opens (alignedOffset size talloc.alignment) ∧ ∃ c i chunk block,
      talloc.chunks[c]? = some chunk ∧ chunk.freeBlocks[i]? = some block ∧
      alignedOffset size talloc.alignment ≤ block.size ∧ addr = ⟨c, block.offset⟩ ∧
      talloc' = { talloc with
        chunks := talloc.chunks.set c (chunk.take i (alignedOffset size talloc.alignment) block) }) ∨
    (talloc.Opens (alignedOffset size talloc.alignment) ∧ addr = ⟨talloc.chunks.length, 0⟩ ∧
      talloc' = { talloc with
        chunks := talloc.chunks ++
          [TallocrChunk.take { freeBlocks := [⟨0, talloc.room (alignedOffset size talloc.alignment)⟩] }
            0 (alignedOffset size talloc.alignment)
            ⟨0, talloc.room (alignedOffset size talloc.alignment)⟩] }) := by
  unfold DynTallocr.alloc at h
  dsimp only at h
  generalize alignedOffset size talloc.alignment = size at h ⊢
  split at h
  · next c i hbest =>
    have hfits : talloc.Fits size c i := by
      rcases or_eq_some_iff.mp hbest with hblock | ⟨-, hlast⟩
      · exact bestBlock_fits hblock
      · exact bestLast_fits hlast
    obtain ⟨chunk, block, hchunk, hblock, hsize⟩ := hfits
    obtain ⟨chunk', block', hchunk', hblock', haddr, htalloc⟩ := takeAt_eq_some h
    obtain rfl := some.inj (hchunk.symm.trans hchunk')
    obtain rfl := some.inj (hblock.symm.trans hblock')
    have hfound : ¬ talloc.Opens size := fun hopens => by
      rw [or_eq_none_iff.mpr hopens] at hbest
      cases hbest
    exact .inl ⟨hfound, c, i, chunk, block, hchunk, hblock, hsize, haddr, htalloc⟩
  · next hbest =>
    obtain ⟨grown, hnew, htake⟩ := bind_eq_some_iff.mp h
    obtain ⟨chunk, block, hchunk, hblock, haddr, htalloc⟩ := takeAt_eq_some htake
    have hgrown : grown = { talloc with
        chunks := talloc.chunks ++ [{ freeBlocks := [⟨0, talloc.room size⟩] }] } := by
      unfold newChunk at hnew
      split at hnew
      · cases hnew
      · exact (some.inj hnew).symm
    subst hgrown
    have hlast : (talloc.chunks ++
        ([{ freeBlocks := [⟨0, talloc.room size⟩] }] : List TallocrChunk)).length - 1 =
        talloc.chunks.length := by simp
    rw [hlast] at hchunk haddr htalloc
    rw [getElem?_concat_length] at hchunk
    obtain rfl := some.inj hchunk
    obtain rfl : (⟨0, talloc.room size⟩ : FreeBlock) = block := some.inj hblock
    refine .inr ⟨or_eq_none_iff.mp hbest, haddr, htalloc.trans ?_⟩
    rw [set_append_right _ _ (Nat.le_refl _), Nat.sub_self, set_cons_zero]

theorem freeBytes_eq_some (h : talloc.freeBytes addr size = some talloc') :
    ∃ chunk chunk', talloc.chunks[addr.chunk]? = some chunk ∧
      chunk.freeBytes addr.offset (alignedOffset size talloc.alignment) = some chunk' ∧
      talloc' = { talloc with
        chunks := talloc.chunks.set addr.chunk chunk' } := by
  obtain ⟨chunk, hchunk, h⟩ := bind_eq_some_iff.mp h
  obtain ⟨chunk', hfree, h⟩ := bind_eq_some_iff.mp h
  exact ⟨chunk, chunk', hchunk, hfree, (some.inj h).symm⟩

end DynTallocr

/-- The allocator, what its users hold, and the extents that its chunks were opened with. -/
structure TallocrRun where
  talloc : DynTallocr
  live : List Allocation := []
  extents : List Nat := []

inductive TallocrCall where
  /-- `ggml_dyn_tallocr_alloc` -/
  | alloc (size : Nat)
  /-- `ggml_dyn_tallocr_free_bytes` of all but the first `keep` bytes of `r`. -/
  | free (r : Allocation) (keep size : Nat)

namespace TallocrRun

/-- `none` if the call ends the process: the free blocks are used up. -/
def step (s : TallocrRun) : TallocrCall → Option TallocrRun
  | .alloc size => do
      let (addr, talloc) ← s.talloc.alloc size
      let size := alignedOffset size s.talloc.alignment
      return {
        talloc := talloc
        live := ⟨addr, size⟩ :: s.live
        extents := if addr.chunk < s.extents.length then s.extents
          else s.extents ++ [s.talloc.room size] }
  | .free r keep size => do
      let talloc ← s.talloc.freeBytes ⟨r.addr.chunk, r.addr.offset + keep⟩ size
      return {
        talloc := talloc
        live := if keep = 0 then s.live.erase r else ⟨r.addr, keep⟩ :: s.live.erase r
        extents := s.extents }

/-- A live allocation is freed as a whole, or from an aligned address in it on. -/
def Permitted (s : TallocrRun) : TallocrCall → Prop
  | .alloc size => 1 ≤ size ∧ size < 2 ^ 64
  | .free r keep size => r ∈ s.live ∧ s.talloc.alignment ∣ keep ∧ keep < r.size ∧
      keep + alignedOffset size s.talloc.alignment = r.size

/-- The size does not overflow when it is rounded up, and a request that opens the last chunk
fits in it. -/
def Granted (s : TallocrRun) : TallocrCall → Prop
  | .alloc size => alignedOffset size s.talloc.alignment < 2 ^ 64 ∧
      (s.talloc.Opens (alignedOffset size s.talloc.alignment) →
        s.talloc.chunks.length = ggmlVbufferMaxChunks - 1 →
        alignedOffset size s.talloc.alignment ≤ sizeMax / 2)
  | .free .. => True

structure Sound (s : TallocrRun) : Prop where
  length_eq : s.extents.length = s.talloc.chunks.length
  chunk_lt : ∀ r ∈ s.live, r.addr.chunk < s.talloc.chunks.length
  extent_lt : ∀ extent ∈ s.extents, extent < 2 ^ 64
  chunk : ∀ c chunk extent, s.talloc.chunks[c]? = some chunk → s.extents[c]? = some extent →
    ChunkSound s.talloc.alignment chunk (regionsOf s.live c) extent

structure Inv (s : TallocrRun) : Prop where
  alignment_pos : 0 < s.talloc.alignment
  maxChunkSize_le : s.talloc.maxChunkSize ≤ sizeMax / 2
  length_eq : s.extents.length = s.talloc.chunks.length
  chunk_lt : ∀ r ∈ s.live, r.addr.chunk < s.talloc.chunks.length
  extent_lt : ∀ extent ∈ s.extents, extent < 2 ^ 64
  chunk : ∀ c chunk extent, s.talloc.chunks[c]? = some chunk → s.extents[c]? = some extent →
    ChunkInv s.talloc.alignment chunk (regionsOf s.live c) extent

variable {s : TallocrRun} {r : Allocation}

theorem Inv.sound (h : s.Inv) : s.Sound :=
  { h with
    chunk := fun c chunk extent hchunk hextent => (h.chunk c chunk extent hchunk hextent).sound }

theorem init_inv {alignment : Nat} (maxBufferSize : Nat) (halign : 0 < alignment) :
    Inv { talloc := .new alignment maxBufferSize } where
  alignment_pos := halign
  maxChunkSize_le := Nat.min_le_right ..
  length_eq := rfl
  chunk_lt := by simp
  extent_lt := by simp
  chunk := by simp [DynTallocr.new]

theorem Inv.alloc {s' : TallocrRun} (h : s.Inv) {size : Nat} (hpos : 1 ≤ size)
    (hgranted : s.Granted (.alloc size)) (hstep : s.step (.alloc size) = some s') : s'.Inv := by
  obtain ⟨⟨addr, talloc⟩, halloc, hret⟩ := bind_eq_some_iff.mp hstep
  obtain rfl := (some.inj hret).symm
  have hsize : 0 < alignedOffset size s.talloc.alignment :=
    Nat.lt_of_lt_of_le hpos (le_alignedOffset size _)
  have hdvd := dvd_alignedOffset size h.alignment_pos
  obtain ⟨hround, hlast⟩ := hgranted
  have hcases := DynTallocr.alloc_cases halloc
  generalize alignedOffset size s.talloc.alignment = size at *
  rcases hcases with ⟨-, c, i, chunk, block, hchunk, hblock, hfits, rfl, rfl⟩ | ⟨hopens, rfl, rfl⟩
  · have hlt : c < s.talloc.chunks.length := (List.getElem?_eq_some_iff.mp hchunk).1
    have hold : c < s.extents.length := by
      rw [h.length_eq]
      exact hlt
    rw [if_pos hold]
    refine ⟨h.alignment_pos, h.maxChunkSize_le, by simpa using h.length_eq, fun r hr => ?_,
      h.extent_lt, fun d chunk' extent hchunk' hextent => ?_⟩
    · rw [length_set]
      cases hr with
      | head => exact hlt
      | tail _ hr => exact h.chunk_lt r hr
    · rw [regionsOf_cons]
      by_cases hd : c = d
      · subst hd
        rw [getElem?_set_self hlt] at hchunk'
        obtain rfl := some.inj hchunk'
        rw [if_pos rfl]
        exact (h.chunk c chunk extent hchunk hextent).take hblock hfits hsize hdvd
      · rw [getElem?_set_ne hd] at hchunk'
        rw [if_neg hd]
        exact h.chunk d chunk' extent hchunk' hextent
  · have hnew : ¬ s.talloc.chunks.length < s.extents.length := by
      rw [h.length_eq]
      exact Nat.lt_irrefl _
    rw [if_neg hnew]
    have hroom : size ≤ s.talloc.room size ∧ s.talloc.room size < 2 ^ 64 := by
      have hmax : s.talloc.maxChunkSize ≤ 2 ^ 63 := h.maxChunkSize_le.trans (by decide)
      unfold DynTallocr.room
      split
      · next hfull => exact ⟨hlast hopens hfull, by decide⟩
      · omega
    have hfresh : regionsOf s.live s.talloc.chunks.length = [] := by
      refine eq_nil_iff_forall_not_mem.mpr fun b hb => ?_
      obtain ⟨r, hr, hchunk, -⟩ := mem_regionsOf.mp hb
      exact Nat.lt_irrefl _ (hchunk ▸ h.chunk_lt r hr)
    refine ⟨h.alignment_pos, h.maxChunkSize_le, by simp [h.length_eq], fun r hr => ?_,
      fun extent hextent => ?_, fun d chunk' extent hchunk' hextent => ?_⟩
    · rw [length_append, length_singleton]
      cases hr with
      | head => exact Nat.lt_succ_self _
      | tail _ hr => exact Nat.lt_succ_of_lt (h.chunk_lt r hr)
    · rcases List.mem_append.mp hextent with hextent | hextent
      · exact h.extent_lt extent hextent
      · obtain rfl := mem_singleton.mp hextent
        exact hroom.2
    · rw [regionsOf_cons]
      rcases Nat.lt_trichotomy d s.talloc.chunks.length with hd | rfl | hd
      · rw [getElem?_append_left hd] at hchunk'
        rw [getElem?_append_left (h.length_eq ▸ hd)] at hextent
        rw [if_neg (Nat.ne_of_gt hd)]
        exact h.chunk d chunk' extent hchunk' hextent
      · rw [getElem?_concat_length] at hchunk'
        rw [← h.length_eq, getElem?_concat_length] at hextent
        obtain rfl := some.inj hchunk'
        obtain rfl := some.inj hextent
        rw [if_pos rfl, hfresh]
        have hopened : ChunkInv s.talloc.alignment { freeBlocks := [⟨0, s.talloc.room size⟩] } []
            (s.talloc.room size) := .opened (by omega)
        exact hopened.take (i := 0) rfl hroom.1 hsize hdvd
      · rw [getElem?_eq_none (by simpa using hd)] at hchunk'
        cases hchunk'

theorem coverOf_regionsOf_free {live : List Allocation} (hr : r ∈ live) {keep : Nat}
    (hkeep : keep ≤ r.size) (c x : Nat) : coverOf (regionsOf live c) x =
      coverOf (regionsOf (if keep = 0 then live.erase r else ⟨r.addr, keep⟩ :: live.erase r) c) x +
        if r.addr.chunk = c then within (r.addr.offset + keep) (r.size - keep) x else 0 := by
  have hperm : (regionsOf live c).Perm (regionsOf (r :: live.erase r) c) :=
    (perm_cons_erase hr).filterMap _
  have hsplit := within_append r.addr.offset keep (r.size - keep) x
  rw [Nat.add_sub_cancel' hkeep] at hsplit
  rw [coverOf_perm hperm, regionsOf_cons]
  by_cases hc : r.addr.chunk = c
  · rw [if_pos hc, if_pos hc, coverOf_cons, hsplit]
    split
    · next hzero =>
      have hnone : within r.addr.offset keep x = 0 := if_neg (by omega)
      omega
    · rw [regionsOf_cons, if_pos hc, coverOf_cons]
      dsimp only
      omega
  · rw [if_neg hc, if_neg hc]
    split
    · rfl
    · rw [regionsOf_cons, if_neg hc, Nat.add_zero]

theorem Inv.free {s' : TallocrRun} (h : s.Inv) {keep size : Nat}
    (hpermitted : s.Permitted (.free r keep size)) (hstep : s.step (.free r keep size) = some s') :
    s'.Inv := by
  obtain ⟨talloc, hfree, hret⟩ := bind_eq_some_iff.mp hstep
  obtain rfl := (some.inj hret).symm
  obtain ⟨hr, hdvd, hkeep, hsize⟩ := hpermitted
  have hrest : alignedOffset size s.talloc.alignment = r.size - keep := by omega
  obtain ⟨chunk, chunk', hchunk, hbytes, rfl⟩ := DynTallocr.freeBytes_eq_some hfree
  rw [hrest] at hbytes
  have hlt := h.chunk_lt r hr
  have hlive : ∀ r' ∈ (if keep = 0 then s.live.erase r else ⟨r.addr, keep⟩ :: s.live.erase r),
      r' ∈ s.live ∨ r' = ⟨r.addr, keep⟩ ∧ 0 < keep := by
    intro r' hr'
    split at hr'
    · exact .inl (mem_of_mem_erase hr')
    · next hne =>
      rcases mem_cons.mp hr' with rfl | hr'
      · exact .inr ⟨rfl, Nat.pos_of_ne_zero hne⟩
      · exact .inl (mem_of_mem_erase hr')
  refine ⟨h.alignment_pos, h.maxChunkSize_le, by simpa using h.length_eq, fun r' hr' => ?_,
    h.extent_lt, fun d chunk'' extent hchunk'' hextent => ?_⟩
  · rw [length_set]
    rcases hlive r' hr' with hr' | ⟨rfl, -⟩
    · exact h.chunk_lt r' hr'
    · exact hlt
  · have hcover := coverOf_regionsOf_free hr hkeep.le d
    by_cases hd : r.addr.chunk = d
    · subst hd
      rw [getElem?_set_self hlt] at hchunk''
      obtain rfl := some.inj hchunk''
      simp only [if_true] at hcover
      have hinv := h.chunk r.addr.chunk chunk extent hchunk hextent
      have hmem : ⟨r.addr.offset, r.size⟩ ∈ regionsOf s.live r.addr.chunk :=
        mem_regionsOf.mpr ⟨r, hr, rfl, rfl⟩
      have haligned := hinv.aligned _ hmem
      have hinside := hinv.inside _ hmem
      refine hinv.freeBytes (by omega) (Nat.dvd_add haligned hdvd) hcover (fun b hb => ?_) hbytes
      obtain ⟨r', hr', hc, rfl⟩ := mem_regionsOf.mp hb
      rcases hlive r' hr' with hr' | ⟨rfl, hpos⟩
      · have hmem' : ⟨r'.addr.offset, r'.size⟩ ∈ regionsOf s.live r.addr.chunk :=
          mem_regionsOf.mpr ⟨r', hr', hc, rfl⟩
        exact ⟨hinv.aligned _ hmem', hinv.pos _ hmem', hinv.inside _ hmem'⟩
      · refine ⟨haligned, hpos, ?_⟩
        dsimp only at hinside ⊢
        omega
    · rw [getElem?_set_ne hd] at hchunk''
      have hinv := h.chunk d chunk'' extent hchunk'' hextent
      refine hinv.congr (fun b hb => ?_) fun x => ?_
      · obtain ⟨r', hr', hc, rfl⟩ := mem_regionsOf.mp hb
        rcases hlive r' hr' with hr' | ⟨rfl, -⟩
        · exact mem_regionsOf.mpr ⟨r', hr', hc, rfl⟩
        · exact absurd hc hd
      · rw [hcover, if_neg hd, Nat.add_zero]

/-- **Allocation.**  From an empty allocator, by any allocations and frees that are granted,
every chunk stays sound. -/
theorem reached_chunks_sound {alignment : Nat} (halign : 0 < alignment) (maxBufferSize : Nat)
    {s : TallocrRun}
    (h : Runs.Reaches step (fun s call => s.Permitted call ∧ s.Granted call)
      { talloc := .new alignment maxBufferSize } s) : s.Sound := by
  refine (h.inv (fun s call s' hinv hq hstep => ?_) (init_inv maxBufferSize halign)).sound
  cases call with
  | alloc size => exact hinv.alloc hq.1.1 hq.2 hstep
  | free r keep size => exact hinv.free hq.1 hstep

instance (s : TallocrRun) : ∀ call, Decidable (s.Permitted call)
  | .alloc _ => inferInstanceAs (Decidable (_ ∧ _))
  | .free .. => inferInstanceAs (Decidable (_ ∧ _ ∧ _ ∧ _))

instance (s : TallocrRun) : ∀ call, Decidable (s.Granted call)
  | .alloc _ => inferInstanceAs (Decidable (_ ∧ _))
  | .free .. => inferInstanceAs (Decidable True)

/-- Three allocations; the first loses its tail, the second is freed. -/
theorem reached_chunks_sound_three : ∃ s : TallocrRun,
    s.live = [⟨⟨0, 0⟩, 8⟩, ⟨⟨0, 40⟩, 16⟩] ∧ s.Sound := by
  have hrun : ((Runs.permitted step (fun s call => s.Permitted call ∧ s.Granted call)
      { talloc := .new 8 64 }
      [.alloc 24, .alloc 13, .alloc 16, .free ⟨⟨0, 0⟩, 24⟩ 8 16, .free ⟨⟨0, 24⟩, 16⟩ 0 13]).map
      fun s => s.live) = some [⟨⟨0, 0⟩, 8⟩, ⟨⟨0, 40⟩, 16⟩] := by decide +kernel
  obtain ⟨s, hs, hlive⟩ := map_eq_some_iff.mp hrun
  exact ⟨s, hlive, reached_chunks_sound (by decide) 64 (Runs.Reaches.refl.ofPermitted hs)⟩

/-! ## Requests that are too large -/

/-- An allocation that reaches beyond the extent of its chunk. -/
theorem not_sound_of_lt (hr : r ∈ s.live) {extent : Nat}
    (hextent : s.extents[r.addr.chunk]? = some extent) (hlt : extent < r.addr.offset + r.size) :
    ¬ s.Sound := by
  intro h
  have hchunk := h.chunk_lt r hr
  have hsound := h.chunk r.addr.chunk s.talloc.chunks[r.addr.chunk] extent
    (getElem?_eq_getElem hchunk) hextent
  have hle := hsound.within_extent ⟨r.addr.offset, r.size⟩
    (mem_append_right _ (mem_regionsOf.mpr ⟨r, hr, rfl, rfl⟩))
  dsimp only at hle
  omega

/-- Fifteen chunks are used up, and half of the address space is asked for. -/
theorem sixteenth_chunk_overflows : ∃ s : TallocrRun,
    Runs.Reaches step Permitted { talloc := .new 8 8 } s ∧ ¬ s.Sound := by
  have hrun : ((Runs.permitted step Permitted { talloc := .new 8 8 }
      (List.replicate 15 (.alloc 8) ++ [.alloc (2 ^ 63)])).map fun s =>
        (s.live.head?, s.extents[15]?)) = some (some ⟨⟨15, 0⟩, 2 ^ 63⟩, some (2 ^ 63 - 1)) := by
    decide +kernel
  obtain ⟨s, hs, hval⟩ := map_eq_some_iff.mp hrun
  obtain ⟨hlive, hextent⟩ := Prod.mk.inj hval
  exact ⟨s, Runs.Reaches.refl.ofPermitted hs,
    not_sound_of_lt (mem_of_mem_head? hlive) hextent (by decide)⟩

end TallocrRun

end LlamaCpp
