import LlamaCpp.Alloc.DynTallocr
import Mathlib

/-!
# The free blocks of a chunk

The free blocks are kept in order, and two of them never touch: between a block and the next
one there is at least one byte.  Taking bytes from the front of a block keeps this.  Freeing
a region keeps it because the loop of `ggml_dyn_tallocr_free_bytes` joins the region with
every block it touches; a region that touches none is inserted where the order wants it.
-/

namespace LlamaCpp

open List Option

/-- `a` ends before `b` starts, with a gap in between. -/
def FreeBlock.Before (a b : FreeBlock) : Prop := a.offset + a.size < b.offset

/-- No byte is in both. -/
def FreeBlock.Apart (a b : FreeBlock) : Prop :=
  a.offset + a.size ≤ b.offset ∨ b.offset + b.size ≤ a.offset

/-- Blocks in order, none empty, no two of them touching. -/
structure Separated (blocks : List FreeBlock) : Prop where
  sorted : blocks.Pairwise FreeBlock.Before
  pos : ∀ b ∈ blocks, 0 < b.size

theorem FreeBlock.Apart.symm {a b : FreeBlock} (h : a.Apart b) : b.Apart a := Or.symm h

theorem FreeBlock.Before.trans {a b c : FreeBlock} (hab : a.Before b) (hbc : b.Before c) : a.Before c := by
  unfold FreeBlock.Before at *
  omega

namespace Separated

variable {l r blocks : List FreeBlock} {b b' : FreeBlock}

theorem singleton (h : 0 < b.size) : Separated [b] := ⟨pairwise_singleton _ b, by simpa using h⟩

theorem sublist (h : Separated blocks) (hsub : List.Sublist l blocks) : Separated l :=
  ⟨h.sorted.sublist hsub, fun b hb => h.pos b (hsub.subset hb)⟩

theorem append_cons_iff :
    Separated (l ++ b :: r) ↔ Separated (l ++ r) ∧ 0 < b.size ∧ (∀ a ∈ l, a.Before b) ∧ ∀ c ∈ r, b.Before c := by
  constructor
  · intro h
    obtain ⟨-, hr, hlr⟩ := pairwise_append.mp h.sorted
    have hsub : List.Sublist (l ++ r) (l ++ b :: r) :=
      (sublist_cons_self b r).append_left l
    exact ⟨h.sublist hsub, h.pos b (by simp), fun a ha => hlr a ha b mem_cons_self, (pairwise_cons.mp hr).1⟩
  · rintro ⟨h, hpos, hl, hr⟩
    obtain ⟨hpl, hpr, hlr⟩ := pairwise_append.mp h.sorted
    constructor
    · refine pairwise_append.mpr ⟨hpl, pairwise_cons.mpr ⟨hr, hpr⟩, fun a ha c hc => ?_⟩
      cases hc with
      | head => exact hl a ha
      | tail _ hc => exact hlr a ha c hc
    · intro c hc
      rcases List.mem_append.mp hc with hc | hc
      · exact h.pos c (mem_append_left r hc)
      · cases hc with
        | head => exact hpos
        | tail _ hc => exact h.pos c (mem_append_right l hc)

/-- A block may be replaced by one that stays in its gap. -/
theorem replace (h : Separated (l ++ b :: r)) (hpos : 0 < b'.size) (hl : ∀ a ∈ l, a.Before b')
    (hr : ∀ c ∈ r, b'.Before c) : Separated (l ++ b' :: r) :=
  append_cons_iff.mpr ⟨(append_cons_iff.mp h).1, hpos, hl, hr⟩

end Separated

namespace TallocrChunk

variable {offset size i : Nat} {chunk : TallocrChunk} {blocks : List FreeBlock}

/-! ## Taking bytes -/

theorem separated_take {block : FreeBlock} (h : Separated chunk.freeBlocks)
    (hblock : chunk.freeBlocks[i]? = some block) (hsize : size ≤ block.size) :
    Separated (chunk.take i size block).freeBlocks := by
  have hrest : (block.shrink size).size = block.size - size := if_pos hsize
  obtain ⟨hlt, hget⟩ := List.getElem?_eq_some_iff.mp hblock
  unfold take
  dsimp only
  split
  · exact h.sublist (eraseIdx_sublist ..)
  · next hne =>
    have hsplit : chunk.freeBlocks = chunk.freeBlocks.take i ++ block :: chunk.freeBlocks.drop (i + 1) := by
      rw [← hget, cons_getElem_drop_succ, take_append_drop]
    rw [set_eq_take_append_cons_drop, if_pos hlt]
    rw [hsplit] at h
    obtain ⟨-, -, hl, hr⟩ := Separated.append_cons_iff.mp h
    refine h.replace (Nat.pos_of_ne_zero hne) (fun a ha => ?_) (fun c hc => ?_)
    · have hbefore := hl a ha
      unfold FreeBlock.Before FreeBlock.shrink at *
      dsimp only
      omega
    · have hbefore := hr c hc
      unfold FreeBlock.Before at *
      rw [hrest]
      dsimp only [FreeBlock.shrink]
      omega

/-! ## Freeing bytes -/

variable {before rest : List FreeBlock}

/-- A block that grew up to the next one takes it in. -/
theorem separated_joinNext {b : FreeBlock}
    (h : Separated (before ++ rest)) (hpos : 0 < b.size) (hbefore : ∀ a ∈ before, a.Before b)
    (hrest : ∀ c ∈ rest, b.offset + b.size ≤ c.offset) :
    Separated (before ++ joinNext b rest) := by
  cases rest with
  | nil => exact Separated.append_cons_iff.mpr ⟨h, hpos, hbefore, by simp⟩
  | cons next rest =>
    obtain ⟨h', hnext, -, hafter⟩ := Separated.append_cons_iff.mp h
    by_cases heq : b.offset + b.size = next.offset
    · have hjoin : joinNext b (next :: rest) = { b with size := b.size + next.size } :: rest :=
        if_pos heq
      rw [hjoin]
      refine Separated.append_cons_iff.mpr ⟨h', ?_, hbefore, fun c hc => ?_⟩
      · dsimp only
        omega
      · have hc := hafter c hc
        unfold FreeBlock.Before at *
        dsimp only
        omega
    · have hjoin : joinNext b (next :: rest) = b :: next :: rest := if_neg heq
      rw [hjoin]
      have hle := hrest next mem_cons_self
      have hlt : b.Before next := by
        unfold FreeBlock.Before
        omega
      refine Separated.append_cons_iff.mpr ⟨h, hpos, hbefore, fun c hc => ?_⟩
      cases hc with
      | head => exact hlt
      | tail _ hc => exact hlt.trans (hafter c hc)

/-- A block that grew down to the previous one is taken in by it. -/
theorem separated_joinPrev {b : FreeBlock}
    (h : Separated (before.reverse ++ rest)) (hpos : 0 < b.size)
    (hbefore : ∀ a ∈ before, a.offset + a.size ≤ b.offset) (hrest : ∀ c ∈ rest, b.Before c) :
    Separated (joinPrev before b ++ rest) := by
  cases before with
  | nil => exact Separated.append_cons_iff.mpr ⟨h, hpos, by simp, hrest⟩
  | cons prev before =>
    rw [reverse_cons, append_assoc] at h
    obtain ⟨h', hprev, hfront, -⟩ := Separated.append_cons_iff.mp h
    unfold joinPrev
    dsimp only
    split
    · next heq =>
      rw [append_assoc]
      refine Separated.append_cons_iff.mpr ⟨h', ?_, hfront, fun c hc => ?_⟩
      · dsimp only
        omega
      · have hc := hrest c hc
        unfold FreeBlock.Before at *
        dsimp only
        omega
    · next hne =>
      have hle := hbefore prev mem_cons_self
      have hlt : prev.Before b := by
        unfold FreeBlock.Before
        omega
      rw [append_assoc]
      refine Separated.append_cons_iff.mpr ⟨?_, hpos, fun a ha => ?_, hrest⟩
      · rw [reverse_cons, append_assoc]
        exact h
      · rcases mem_cons.mp (mem_reverse.mp ha) with rfl | ha
        · exact hlt
        · exact (hfront a (mem_reverse.mpr ha)).trans hlt

/-- The loop, at a block that the region does not touch yet. -/
theorem separated_mergeBytes (hsize : 0 < size) :
    ∀ {before : List FreeBlock}, Separated (before.reverse ++ blocks) →
      (∀ b ∈ before ++ blocks, FreeBlock.Apart ⟨offset, size⟩ b) →
      match mergeBytes offset size before blocks with
      | some blocks' => Separated blocks'
      | none => ∀ b ∈ blocks, b.offset + b.size ≠ offset ∧ offset + size ≠ b.offset := by
  induction blocks with
  | nil =>
    intro before h hapart
    simp [mergeBytes]
  | cons b rest ih =>
    intro before h hapart
    obtain ⟨h', hpos, hl, hr⟩ := Separated.append_cons_iff.mp h
    have hfront : ∀ a ∈ before, a.Before b := fun a ha => hl a (mem_reverse.mpr ha)
    unfold mergeBytes
    by_cases hend : b.offset + b.size = offset
    · rw [if_pos hend]
      refine separated_joinNext h' ?_ (fun a ha => ?_) (fun c hc => ?_)
      · dsimp only
        omega
      · exact hl a ha
      · have hbc := hr c hc
        have hc := hapart c (mem_append_right before (mem_cons_of_mem b hc))
        unfold FreeBlock.Before FreeBlock.Apart at *
        dsimp only at *
        omega
    · rw [if_neg hend]
      by_cases hbegin : offset + size = b.offset
      · rw [if_pos hbegin]
        refine separated_joinPrev h' ?_ (fun a ha => ?_) (fun c hc => ?_)
        · dsimp only
          omega
        · have hab := hfront a ha
          have ha := hapart a (mem_append_left (b :: rest) ha)
          unfold FreeBlock.Before FreeBlock.Apart at *
          dsimp only at *
          omega
        · have hbc := hr c hc
          unfold FreeBlock.Before at *
          dsimp only
          omega
      · rw [if_neg hbegin]
        have hnext := @ih (b :: before) (by simpa using h) fun c hc =>
          hapart c (by simpa [or_left_comm] using hc)
        cases hmerge : mergeBytes offset size (b :: before) rest with
        | some blocks' =>
          rw [hmerge] at hnext
          exact hnext
        | none =>
          rw [hmerge] at hnext
          intro c hc
          cases hc with
          | head => exact ⟨hend, hbegin⟩
          | tail _ hc => exact hnext c hc

/-- The blocks that the insertion leaves behind the new one. -/
theorem le_of_mem_dropWhile {c : FreeBlock} (h : blocks.Pairwise FreeBlock.Before)
    (hc : c ∈ blocks.dropWhile (·.offset < offset)) : offset ≤ c.offset := by
  induction h with
  | nil => cases hc
  | @cons b rest hb _ ih =>
    by_cases hlt : b.offset < offset
    · rw [dropWhile_cons, if_pos (by simpa using hlt)] at hc
      exact ih hc
    · rw [dropWhile_cons, if_neg (by simpa using hlt)] at hc
      cases hc with
      | head => exact Nat.le_of_not_lt hlt
      | tail _ hc =>
        have hbefore := hb c hc
        unfold FreeBlock.Before at hbefore
        omega

theorem separated_insertBlock {blocks' : List FreeBlock} (h : Separated blocks) (hsize : 0 < size)
    (hapart : ∀ b ∈ blocks, FreeBlock.Apart ⟨offset, size⟩ b)
    (htouch : ∀ b ∈ blocks, b.offset + b.size ≠ offset ∧ offset + size ≠ b.offset)
    (hinsert : insertBlock blocks offset size = some blocks') : Separated blocks' := by
  unfold insertBlock at hinsert
  split at hinsert
  · obtain rfl := some.inj hinsert
    have hsplit := takeWhile_append_dropWhile (p := fun b : FreeBlock => b.offset < offset)
      (l := blocks)
    refine Separated.append_cons_iff.mpr ⟨?_, hsize, fun a ha => ?_, fun c hc => ?_⟩
    · rw [hsplit]
      exact h
    · have hlt : a.offset < offset := of_decide_eq_true
        (mem_takeWhile_imp (p := fun b : FreeBlock => b.offset < offset) ha)
      have hmem : a ∈ blocks := takeWhile_subset _ ha
      have h₁ := hapart a hmem
      have h₂ := htouch a hmem
      unfold FreeBlock.Before FreeBlock.Apart at *
      dsimp only at *
      omega
    · have hmem : c ∈ blocks := dropWhile_subset _ hc
      have hle : offset ≤ c.offset := le_of_mem_dropWhile h.sorted hc
      have hpos := h.pos c hmem
      have h₁ := hapart c hmem
      have h₂ := htouch c hmem
      unfold FreeBlock.Before FreeBlock.Apart at *
      dsimp only at *
      omega
  · cases hinsert

variable {chunk' : TallocrChunk}

theorem separated_freeBytes (h : Separated chunk.freeBlocks) (hsize : 0 < size)
    (hapart : ∀ b ∈ chunk.freeBlocks, FreeBlock.Apart ⟨offset, size⟩ b)
    (hfree : chunk.freeBytes offset size = some chunk') : Separated chunk'.freeBlocks := by
  have hmerge := @separated_mergeBytes offset size chunk.freeBlocks hsize [] (by simpa using h)
    (by simpa using hapart)
  unfold TallocrChunk.freeBytes at hfree
  split at hfree
  · next blocks heq =>
    obtain rfl := some.inj hfree
    rw [heq] at hmerge
    exact hmerge
  · next heq =>
    obtain ⟨blocks, hinsert, rfl⟩ := map_eq_some_iff.mp hfree
    rw [heq] at hmerge
    exact separated_insertBlock h hsize hapart hmerge hinsert

/-! ### Where the blocks start -/

section Offsets

variable {P : Nat → Prop}

theorem offset_joinNext {b : FreeBlock} (hb : P b.offset)
    (hrest : ∀ c ∈ rest, P c.offset) : ∀ c ∈ joinNext b rest, P c.offset := by
  cases rest with
  | nil => simpa [joinNext] using hb
  | cons next rest =>
    obtain ⟨hnext, hrest⟩ := forall_mem_cons.mp hrest
    unfold joinNext
    dsimp only
    split
    · exact forall_mem_cons.mpr ⟨hb, hrest⟩
    · exact forall_mem_cons.mpr ⟨hb, forall_mem_cons.mpr ⟨hnext, hrest⟩⟩

theorem offset_joinPrev {b : FreeBlock} (hb : P b.offset)
    (hbefore : ∀ a ∈ before, P a.offset) : ∀ a ∈ joinPrev before b, P a.offset := by
  cases before with
  | nil => simpa [joinPrev] using hb
  | cons prev before =>
    obtain ⟨hprev, hbefore⟩ := forall_mem_cons.mp hbefore
    unfold joinPrev
    dsimp only
    split
    · intro a ha
      rcases List.mem_append.mp ha with ha | ha
      · exact hbefore a (mem_reverse.mp ha)
      · obtain rfl := mem_singleton.mp ha
        exact hprev
    · intro a ha
      rcases List.mem_append.mp ha with ha | ha
      · rcases mem_cons.mp (mem_reverse.mp ha) with rfl | ha
        · exact hprev
        · exact hbefore a ha
      · obtain rfl := mem_singleton.mp ha
        exact hb

theorem offset_mergeBytes {blocks : List FreeBlock} (hoffset : P offset) :
    ∀ {before blocks' : List FreeBlock}, (∀ b ∈ before, P b.offset) → (∀ b ∈ blocks, P b.offset) →
      mergeBytes offset size before blocks = some blocks' → ∀ b ∈ blocks', P b.offset := by
  induction blocks with
  | nil =>
    intro before blocks' _ _ h
    cases h
  | cons b rest ih =>
    intro before blocks' hbefore hblocks h
    obtain ⟨hb, hrest⟩ := forall_mem_cons.mp hblocks
    unfold mergeBytes at h
    split at h
    · obtain rfl := some.inj h
      intro c hc
      rcases List.mem_append.mp hc with hc | hc
      · exact hbefore c (mem_reverse.mp hc)
      · refine offset_joinNext ?_ hrest c hc
        exact hb
    · split at h
      · obtain rfl := some.inj h
        intro c hc
        rcases List.mem_append.mp hc with hc | hc
        · exact offset_joinPrev hoffset hbefore c hc
        · exact hrest c hc
      · exact ih (forall_mem_cons.mpr ⟨hb, hbefore⟩) hrest h

/-- Every block starts where a block or the freed region did. -/
theorem offset_freeBytes {chunk : TallocrChunk} (hoffset : P offset)
    (hblocks : ∀ b ∈ chunk.freeBlocks, P b.offset) (h : chunk.freeBytes offset size = some chunk') :
    ∀ b ∈ chunk'.freeBlocks, P b.offset := by
  unfold TallocrChunk.freeBytes at h
  split at h
  · next blocks hmerge =>
    obtain rfl := some.inj h
    exact offset_mergeBytes hoffset (by simp) hblocks hmerge
  · obtain ⟨blocks, hinsert, rfl⟩ := map_eq_some_iff.mp h
    unfold insertBlock at hinsert
    split at hinsert
    · obtain rfl := some.inj hinsert
      intro b hb
      rcases List.mem_append.mp hb with hb | hb
      · exact hblocks b (takeWhile_subset _ hb)
      · cases hb with
        | head => exact hoffset
        | tail _ hb => exact hblocks b (dropWhile_subset _ hb)
    · cases hinsert

end Offsets

theorem freeBytes_maxSize (h : chunk.freeBytes offset size = some chunk') : chunk'.maxSize = chunk.maxSize := by
  unfold TallocrChunk.freeBytes at h
  split at h
  · obtain rfl := some.inj h
    rfl
  · obtain ⟨blocks, -, rfl⟩ := map_eq_some_iff.mp h
    rfl

end TallocrChunk

/-! ## Blocks and the bytes they cover -/

theorem within_eq_one {b : FreeBlock} {x : Nat} (h₁ : b.offset ≤ x) (h₂ : x < b.offset + b.size) :
    within b.offset b.size x = 1 := if_pos ⟨h₁, h₂⟩

variable {blocks : List FreeBlock}

theorem within_le_coverOf {b : FreeBlock} (hb : b ∈ blocks) (x : Nat) : within b.offset b.size x ≤ coverOf blocks x :=
  le_sum_of_mem (List.mem_map_of_mem hb)

theorem coverOf_perm {l r : List FreeBlock} (h : l.Perm r) (x : Nat) : coverOf l x = coverOf r x :=
  (h.map _).sum_eq

/-- Two blocks that no byte is counted twice for. -/
theorem apart_of_within {a b : FreeBlock} (ha : 0 < a.size) (hb : 0 < b.size)
    (h : ∀ x, within a.offset a.size x + within b.offset b.size x ≤ 1) : a.Apart b := by
  by_contra hcon
  unfold FreeBlock.Apart at hcon
  have hx := h (max a.offset b.offset)
  rw [within_eq_one (by omega) (by omega), within_eq_one (by omega) (by omega)] at hx
  omega

/-- Blocks that cover no byte twice have none in common. -/
theorem pairwise_apart (hpos : ∀ b ∈ blocks, 0 < b.size) (h : ∀ x, coverOf blocks x ≤ 1) :
    blocks.Pairwise FreeBlock.Apart := by
  induction blocks with
  | nil => exact .nil
  | cons b blocks ih =>
    refine pairwise_cons.mpr ⟨fun c hc => ?_, ih (fun c hc => hpos c (mem_cons_of_mem b hc))
      fun x => ?_⟩
    · refine apart_of_within (hpos b mem_cons_self) (hpos c (mem_cons_of_mem b hc))
        fun x => ?_
      have hx := h x
      have hcx := within_le_coverOf hc x
      rw [coverOf_cons] at hx
      omega
    · have hx := h x
      rw [coverOf_cons] at hx
      omega

/-- A region is as long as it has bytes. -/
theorem sum_within {b : FreeBlock} {n : Nat} (h : b.offset + b.size ≤ n) :
    ∑ x ∈ Finset.range n, within b.offset b.size x = b.size := by
  have hfilter : {x ∈ Finset.range n | b.offset ≤ x ∧ x < b.offset + b.size} =
      Finset.Ico b.offset (b.offset + b.size) := by
    ext x
    simp only [Finset.mem_filter, Finset.mem_range, Finset.mem_Ico]
    omega
  unfold within
  rw [← Finset.card_filter, hfilter, Nat.card_Ico, Nat.add_sub_cancel_left]

/-- Counting every byte of the blocks gives their sizes. -/
theorem sum_coverOf {n : Nat} (h : ∀ b ∈ blocks, b.offset + b.size ≤ n) :
    ∑ x ∈ Finset.range n, coverOf blocks x = (blocks.map (·.size)).sum := by
  induction blocks with
  | nil => simp
  | cons b blocks ih =>
    have hrest := ih fun c hc => h c (mem_cons_of_mem b hc)
    simp only [coverOf_cons, Finset.sum_add_distrib, hrest, sum_within (h b mem_cons_self), map_cons, sum_cons]

theorem coverOf_eq_zero {x : Nat} (h : ∀ b ∈ blocks, x < b.offset ∨ b.offset + b.size ≤ x) :
    coverOf blocks x = 0 := by
  refine sum_eq_zero fun n hn => ?_
  obtain ⟨b, hb, rfl⟩ := List.mem_map.mp hn
  have hx := h b hb
  exact if_neg (by omega)

/-- A block that covers bytes of an extent only ends in it. -/
theorem end_le_of_cover {b : FreeBlock} {extent : Nat} (hpos : 0 < b.size)
    (h : ∀ x, within b.offset b.size x ≤ within 0 extent x) : b.offset + b.size ≤ extent := by
  have hlast := h (b.offset + b.size - 1)
  rw [within_eq_one (by omega) (by omega)] at hlast
  unfold within at hlast
  split_ifs at hlast <;> omega

/-- Separated blocks that cover an extent without a hole are one block. -/
theorem Separated.eq_singleton {extent : Nat} (h : Separated blocks) (hextent : 0 < extent)
    (hcover : ∀ x, coverOf blocks x = within 0 extent x) : blocks = [⟨0, extent⟩] := by
  cases blocks with
  | nil =>
    have hfirst := hcover 0
    rw [within, if_pos (by omega)] at hfirst
    cases hfirst
  | cons b rest =>
    have hafter : ∀ c ∈ rest, b.Before c := (pairwise_cons.mp h.sorted).1
    have hpos := h.pos b mem_cons_self
    have hcov : ∀ x < extent, coverOf (b :: rest) x = 1 := fun x hx => by
      rw [hcover, within, if_pos (by omega)]
    have hle : ∀ c ∈ b :: rest, c.offset + c.size ≤ extent := fun c hc =>
      end_le_of_cover (h.pos c hc) fun x => (within_le_coverOf hc x).trans_eq (hcover x)
    -- the first byte is in the first block, and so are all the others
    have hstart : b.offset = 0 := by
      by_contra hne
      have hnone : coverOf (b :: rest) 0 = 0 := coverOf_eq_zero fun c hc => by
        cases hc with
        | head => exact .inl (by omega)
        | tail _ hc =>
          have hbc := hafter c hc
          unfold FreeBlock.Before at hbc
          exact .inl (by omega)
      rw [hcov 0 hextent] at hnone
      cases hnone
    have hend : extent ≤ b.size := by
      by_contra hlt
      have hnone : coverOf (b :: rest) b.size = 0 := coverOf_eq_zero fun c hc => by
        cases hc with
        | head => exact .inr (by omega)
        | tail _ hc =>
          have hbc := hafter c hc
          unfold FreeBlock.Before at hbc
          exact .inl (by omega)
      rw [hcov b.size (by omega)] at hnone
      cases hnone
    have hrest : rest = [] := by
      cases rest with
      | nil => rfl
      | cons c rest =>
        have hbc := hafter c mem_cons_self
        have hc := hle c (mem_cons_of_mem b mem_cons_self)
        unfold FreeBlock.Before at hbc
        omega
    have hsize : b.size = extent := by
      have hb := hle b mem_cons_self
      omega
    obtain ⟨offset, size⟩ := b
    dsimp only at hstart hsize
    rw [hrest, hstart, hsize]

end LlamaCpp
