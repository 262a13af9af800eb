import LlamaCpp.Alloc.Reserve
import LlamaCpp.Lib.Runs
import LlamaCpp.Lib.Loops

/-!
# Who owns the vbuffers

Entries with the same buffer type are one owner: the first of them, the root, and the others
hold a copy of its pointer.  `Owned` says that the owners have different vbuffers that are
not freed, and that every other vbuffer was freed once.  It is kept by every reserve that
succeeds.

One that fails returns from the loop before the later entries got their copies.  They hold
the pointer of before, and if the root gave up its vbuffer in this call that one is freed.
`CleanReserve` says that no entry is left behind so.
-/

namespace LlamaCpp

open List Option Function

namespace VbufferTable

variable {bufts : List Nat} {s s' : VbufferTable} {tallocs : Nat → DynTallocr} {noAlloc : Bool}
  {outcome : Nat → AllocOutcome} {i j k : Nat} {talloc : DynTallocr}

/-! ## Roots -/

theorem sharer_eq_some (h : sharer bufts i = some j) : j < i ∧ bufts[j]? = bufts[i]? ∧ sharer bufts j = none := by
  have hj := mem_range.mp (mem_of_find?_eq_some h)
  have heq : bufts[j]? = bufts[i]? := of_decide_eq_true (find?_some
    (p := fun j => decide (bufts[j]? = bufts[i]?)) h)
  refine ⟨hj, heq, find?_eq_none.mpr fun k hk hsame => ?_⟩
  obtain ⟨-, before, after, hsplit, hno⟩ := find?_eq_some_iff_append.mp h
  have hk : k < j := mem_range.mp hk
  have hmem : k ∈ before := by
    have hlen : before.length = j := by
      have hget : (List.range i)[before.length]? = some j := by simp [hsplit]
      have hlt := (List.getElem?_eq_some_iff.mp hget).1
      rw [getElem?_eq_getElem hlt, getElem_range] at hget
      exact some.inj hget
    have hget : (List.range i)[k]? = some k := getElem?_range (by omega)
    rw [hsplit, getElem?_append_left (by omega)] at hget
    exact mem_of_getElem? hget
  have hkj : bufts[k]? = bufts[j]? := of_decide_eq_true hsame
  simpa [hkj.trans heq] using hno k hmem

theorem sharer_eq_none (h : sharer bufts i = none) (hj : j < i) : bufts[j]? ≠ bufts[i]? := by
  simpa using find?_eq_none.mp h j (mem_range.mpr hj)

/-- The first entry with the same buffer type. -/
def root (bufts : List Nat) (i : Nat) : Nat := (sharer bufts i).getD i

theorem root_of_none (h : sharer bufts i = none) : root bufts i = i := by simp [root, h]

theorem root_of_some (h : sharer bufts i = some j) : root bufts i = j := by simp [root, h]

theorem root_spec (i : Nat) : root bufts i ≤ i ∧ bufts[root bufts i]? = bufts[i]? ∧
    sharer bufts (root bufts i) = none := by
  cases h : sharer bufts i with
  | none =>
    rw [root_of_none h]
    exact ⟨Nat.le_refl i, rfl, h⟩
  | some j =>
    obtain ⟨hlt, heq, hroot⟩ := sharer_eq_some h
    rw [root_of_some h]
    exact ⟨Nat.le_of_lt hlt, heq, hroot⟩

/-- Equal buffer types have the same root. -/
theorem root_eq_iff : root bufts i = root bufts j ↔ bufts[i]? = bufts[j]? := by
  constructor
  · intro h
    rw [← (root_spec i).2.1, h, (root_spec j).2.1]
  · intro h
    have heq : bufts[root bufts i]? = bufts[root bufts j]? := by
      rw [(root_spec i).2.1, (root_spec j).2.1, h]
    rcases Nat.lt_trichotomy (root bufts i) (root bufts j) with hlt | he | hgt
    · exact absurd heq (sharer_eq_none (root_spec j).2.2 hlt)
    · exact he
    · exact absurd heq.symm (sharer_eq_none (root_spec i).2.2 hgt)

/-! ## Owners -/

structure RootsOwn (bufts : List Nat) (s : VbufferTable) : Prop where
  live : ∀ r < bufts.length, sharer bufts r = none → ∀ p, s.entry r = some p →
    p < s.heap.next ∧ s.heap.frees p = 0
  uniq : ∀ r < bufts.length, ∀ r' < bufts.length, sharer bufts r = none → sharer bufts r' = none →
    ∀ p, s.entry r = some p → s.entry r' = some p → r = r'
  once : ∀ p < s.heap.next, (∃ r < bufts.length, sharer bufts r = none ∧ s.entry r = some p) ∨
    s.heap.frees p = 1
  beyond : ∀ p, s.heap.next ≤ p → s.heap.frees p = 0

/-- The roots own their vbuffers, and the other entries are copies. -/
structure Owned (bufts : List Nat) (s : VbufferTable) : Prop extends RootsOwn bufts s where
  copy : ∀ i < bufts.length, s.entry i = s.entry (root bufts i)

theorem RootsOwn.set (h : RootsOwn bufts s) (hi : sharer bufts i ≠ none) (p : Option Nat) :
    RootsOwn bufts (s.set i p) := by
  have hkeep : ∀ r, sharer bufts r = none → (s.set i p).entry r = s.entry r := by
    intro r hr
    have hne : r ≠ i := by
      rintro rfl
      exact hi hr
    exact update_of_ne hne _ _
  refine ⟨fun r hlt hr q hq => ?_, fun r hlt r' hlt' hr hr' q hq hq' => ?_, fun q hq => ?_, h.beyond⟩
  · rw [hkeep r hr] at hq
    exact h.live r hlt hr q hq
  · rw [hkeep r hr] at hq
    rw [hkeep r' hr'] at hq'
    exact h.uniq r hlt r' hlt' hr hr' q hq hq'
  · rcases h.once q hq with ⟨r, hlt, hr, hq⟩ | hq
    · exact .inl ⟨r, hlt, hr, (hkeep r hr).trans hq⟩
    · exact .inr hq

/-- A root gives up its vbuffer. -/
theorem RootsOwn.release (h : RootsOwn bufts s) (hlt : i < bufts.length)
    (hi : sharer bufts i = none) : RootsOwn bufts ((s.free (s.entry i)).set i none) := by
  have hentry : ∀ r, ((s.free (s.entry i)).set i none).entry r = if r = i then none else s.entry r := by
    intro r
    have hsame : (s.free (s.entry i)).entry = s.entry := by
      cases s.entry i <;> rfl
    change Function.update (s.free (s.entry i)).entry i none r = _
    rw [hsame, update_apply]
  have hnext : (s.free (s.entry i)).heap.next = s.heap.next := by
    cases s.entry i <;> rfl
  have hfrees : ∀ p, s.entry i ≠ some p → (s.free (s.entry i)).heap.frees p = s.heap.frees p := by
    intro p hp
    cases hown : s.entry i with
    | none => rfl
    | some q =>
      have hne : p ≠ q := by
        rintro rfl
        exact hp hown
      exact update_of_ne hne _ _
  refine ⟨fun r hr hroot p hp => ?_, fun r hr r' hr' hroot hroot' p hp hp' => ?_, fun p hp => ?_, fun p hp => ?_⟩
  · rw [hentry] at hp
    split at hp
    · cases hp
    · next hne =>
      change p < (s.free (s.entry i)).heap.next ∧ (s.free (s.entry i)).heap.frees p = 0
      rw [hnext, hfrees p fun hi' => hne (h.uniq r hr i hlt hroot hi p hp hi')]
      exact h.live r hr hroot p hp
  · rw [hentry] at hp hp'
    split at hp
    · cases hp
    · split at hp'
      · cases hp'
      · exact h.uniq r hr r' hr' hroot hroot' p hp hp'
  · change p < (s.free (s.entry i)).heap.next at hp
    rw [hnext] at hp
    by_cases hown : s.entry i = some p
    · right
      have hzero := (h.live i hlt hi p hown).2
      change (s.free (s.entry i)).heap.frees p = 1
      rw [hown]
      simp [VbufferTable.free, hzero]
    · rcases h.once p hp with ⟨r, hr, hroot, hr'⟩ | hone
      · have hne : r ≠ i := by
          rintro rfl
          exact hown hr'
        exact .inl ⟨r, hr, hroot, by rw [hentry, if_neg hne, hr']⟩
      · exact .inr ((hfrees p hown).trans hone)
  · change (s.free (s.entry i)).heap.next ≤ p at hp
    rw [hnext] at hp
    refine (hfrees p fun hown => ?_).trans (h.beyond p hp)
    exact absurd (h.live i hlt hi p hown).1 (Nat.not_lt.mpr hp)

/-- A root without a vbuffer gets a new one. -/
theorem RootsOwn.fresh (h : RootsOwn bufts s) (hlt : i < bufts.length) (hi : sharer bufts i = none)
    (hnone : s.entry i = none) {o : AllocOutcome} : RootsOwn bufts (s.alloc i talloc o) := by
  unfold VbufferTable.alloc
  split
  · have hsame : s.set i none = s := by
      unfold VbufferTable.set
      rw [← hnone, update_eq_self]
    rw [hsame]
    exact h
  · have hentry : ∀ r p, Function.update s.entry i (some s.heap.next) r = some p →
        r = i ∧ p = s.heap.next ∨ r ≠ i ∧ s.entry r = some p := by
      intro r p hp
      rcases eq_or_ne r i with rfl | hne
      · rw [update_self] at hp
        exact .inl ⟨rfl, (some.inj hp).symm⟩
      · rw [update_of_ne hne] at hp
        exact .inr ⟨hne, hp⟩
    refine ⟨fun r hr hroot p hp => ?_, fun r hr r' hr' hroot hroot' p hp hp' => ?_, fun p hp => ?_,
      fun p hp => h.beyond p (Nat.le_of_succ_le hp)⟩
    · rcases hentry r p hp with ⟨-, rfl⟩ | ⟨-, hp⟩
      · exact ⟨Nat.lt_succ_self _, h.beyond _ (Nat.le_refl _)⟩
      · obtain ⟨hlt, hzero⟩ := h.live r hr hroot p hp
        exact ⟨Nat.lt_succ_of_lt hlt, hzero⟩
    · rcases hentry r p hp with ⟨rfl, rfl⟩ | ⟨-, hold⟩
      · rcases hentry r' s.heap.next hp' with ⟨rfl, -⟩ | ⟨-, hp'⟩
        · rfl
        · exact absurd (h.live r' hr' hroot' _ hp').1 (Nat.lt_irrefl _)
      · rcases hentry r' p hp' with ⟨-, rfl⟩ | ⟨-, hp'⟩
        · exact absurd (h.live r hr hroot _ hold).1 (Nat.lt_irrefl _)
        · exact h.uniq r hr r' hr' hroot hroot' p hold hp'
    · rcases Nat.lt_succ_iff_lt_or_eq.mp hp with hp | rfl
      · rcases h.once p hp with ⟨r, hr, hroot, hr'⟩ | hone
        · have hne : r ≠ i := by
            rintro rfl
            rw [hnone] at hr'
            cases hr'
          exact .inl ⟨r, hr, hroot, (update_of_ne hne _ _).trans hr'⟩
        · exact .inr hone
      · exact .inl ⟨i, hlt, hi, update_self ..⟩

/-! ## The loop over the entries -/

def tallocOf (bufts : List Nat) (tallocs : Nat → DynTallocr) (i : Nat) : DynTallocr :=
  tallocs (bufts.getD i 0)

theorem tallocOf_root : tallocOf bufts tallocs (root bufts i) = tallocOf bufts tallocs i := by
  unfold tallocOf
  rw [getD_eq_getElem?_getD, getD_eq_getElem?_getD, (root_spec i).2.1]

/-- Entry `k` is the root at which the loop stops: it needs a vbuffer and does not get one. -/
def Fails (bufts : List Nat) (tallocs : Nat → DynTallocr) (outcome : Nat → AllocOutcome)
    (s : VbufferTable) (k : Nat) : Prop :=
  sharer bufts k = none ∧ s.needsRealloc (tallocOf bufts tallocs k) k ∧
    allocChunks (tallocOf bufts tallocs k) (outcome k) = none

/-- The state in the loop, before entry `i`; `s₀` is the state before the loop. -/
structure Reserving (bufts : List Nat) (tallocs : Nat → DynTallocr) (noAlloc : Bool)
    (outcome : Nat → AllocOutcome) (s₀ : VbufferTable) (i : Nat) (s : VbufferTable) : Prop
    extends RootsOwn bufts s where
  done : ∀ j < i, s.entry j = s.entry (root bufts j)
  todo : ∀ j, i ≤ j → s.entry j = s₀.entry j
  fits : ∀ r < i, sharer bufts r = none → s.needsRealloc (tallocOf bufts tallocs r) r →
    s.entry r = none ∧ noAlloc
  kept : ∀ r < i, sharer bufts r = none → s₀.needsRealloc (tallocOf bufts tallocs r) r = false →
    s.entry r = s₀.entry r
  passed : noAlloc = false → ∀ r < i, ¬Fails bufts tallocs outcome s₀ r
  next_le : s₀.heap.next ≤ s.heap.next
  chunks : ∀ p < s₀.heap.next, s.heap.chunks p = s₀.heap.chunks p

/-- The answer depends on the entry and on the sizes of its chunks. -/
theorem needsRealloc_congr (hentry : s'.entry i = s.entry j)
    (hchunks : ∀ p, s.entry j = some p → s'.heap.chunks p = s.heap.chunks p) :
    s'.needsRealloc talloc i = s.needsRealloc talloc j := by
  unfold needsRealloc
  rw [hentry]
  cases h : s.entry j with
  | none => rfl
  | some p =>
    dsimp only
    unfold chunkSize
    rw [hchunks p h]

/-- A vbuffer that was just allocated is large enough. -/
theorem needsRealloc_alloc {o : AllocOutcome} (ho : o.Fits) {sizes : List Nat}
    (h : allocChunks talloc o = some sizes) : (s.alloc i talloc o).needsRealloc talloc i = false := by
  have hrun : (talloc.chunks.zipIdx.mapM fun chunk => o.chunk chunk.2 chunk.1.maxSize) = some sizes := by
    unfold allocChunks at h
    split at h
    · exact h
    · cases h
  have hsize : ∀ n < talloc.chunks.length, talloc.maxSize n ≤ sizes.getD n 0 := by
    intro n hn
    obtain ⟨hlen, hget⟩ := forall₂_iff_get.mp (Loops.mapM_eq_some.mp hrun)
    rw [length_zipIdx] at hlen
    have hone := hget n (by simpa using hn) (by omega)
    simp only [get_eq_getElem, getElem_zipIdx, Nat.zero_add] at hone
    have hfit := ho _ _ _ hone
    rw [getD_eq_getElem?_getD, getElem?_eq_getElem (by omega), getD_some,
      DynTallocr.maxSize, getElem?_eq_getElem hn, map_some, getD_some]
    exact hfit
  unfold needsRealloc VbufferTable.alloc
  rw [h]
  dsimp only
  rw [update_self]
  rw [List.any_eq_false]
  intro n hn
  have hle := hsize n (mem_range.mp hn)
  simp only [chunkSize, update_self, decide_eq_true_eq]
  omega

/-- An entry that shares its allocator takes the pointer of its root, and nothing else
happens. -/
theorem Reserving.share (h : Reserving bufts tallocs noAlloc outcome s' i s) (hi : sharer bufts i ≠ none) :
    s.reserveEntry bufts tallocs noAlloc outcome i = (true, s.set i (s.entry (root bufts i))) := by
  obtain ⟨j, hj⟩ := ne_none_iff_exists'.mp hi
  obtain ⟨hlt, -, hroot⟩ := sharer_eq_some hj
  have htalloc : tallocOf bufts tallocs j = tallocOf bufts tallocs i := by
    rw [← tallocOf_root (i := i), root_of_some hj]
  have hshare : s.share bufts i = s.set i (s.entry j) := by
    rw [VbufferTable.share, hj]
  have hentry : (s.set i (s.entry j)).entry i = s.entry j := update_self ..
  have hneeds : (s.set i (s.entry j)).needsRealloc (tallocOf bufts tallocs i) i =
      s.needsRealloc (tallocOf bufts tallocs j) j := by
    rw [htalloc]
    exact needsRealloc_congr hentry fun _ _ => rfl
  unfold reserveEntry
  rw [hshare, root_of_some hj]
  change (if (s.set i (s.entry j)).needsRealloc (tallocOf bufts tallocs i) i then _ else _) = _
  rw [hneeds]
  cases hr : s.needsRealloc (tallocOf bufts tallocs j) j with
  | false => rfl
  | true =>
    obtain ⟨hnone, rfl⟩ := h.fits j hlt hroot hr
    rw [if_pos rfl, if_pos rfl, hentry, hnone]
    unfold VbufferTable.free VbufferTable.set
    rw [update_idem]

theorem reserveEntry_root (hi : sharer bufts i = none) :
    s.reserveEntry bufts tallocs noAlloc outcome i =
      if s.needsRealloc (tallocOf bufts tallocs i) i then
        if noAlloc then (true, (s.free (s.entry i)).set i none)
        else
          ((allocChunks (tallocOf bufts tallocs i) (outcome i)).isSome,
            ((s.free (s.entry i)).set i none).alloc i (tallocOf bufts tallocs i) (outcome i))
      else (true, s) := by
  have hshare : s.share bufts i = s := by
    rw [VbufferTable.share, hi]
  have halloc : (s.free (s.entry i)).alloc i (tallocOf bufts tallocs i) (outcome i) =
      ((s.free (s.entry i)).set i none).alloc i (tallocOf bufts tallocs i) (outcome i) := by
    unfold VbufferTable.alloc VbufferTable.set
    split <;> simp only [update_idem]
  have hok : (((s.free (s.entry i)).alloc i (tallocOf bufts tallocs i) (outcome i)).entry i).isSome =
      (allocChunks (tallocOf bufts tallocs i) (outcome i)).isSome := by
    unfold VbufferTable.alloc VbufferTable.set
    split
    · next h => simp [h]
    · next h => simp [h]
  unfold reserveEntry
  rw [hshare]
  change (if s.needsRealloc (tallocOf bufts tallocs i) i then _ else _) = _
  split
  · split
    · rfl
    · exact Prod.ext hok halloc
  · rfl

theorem Owned.reserving (h : Owned bufts s) : Reserving bufts tallocs noAlloc outcome s 0 s where
  toRootsOwn := h.toRootsOwn
  done j hj := absurd hj (Nat.not_lt_zero j)
  todo _ _ := rfl
  fits r hr := absurd hr (Nat.not_lt_zero r)
  kept r hr := absurd hr (Nat.not_lt_zero r)
  passed _ r hr := absurd hr (Nat.not_lt_zero r)
  next_le := Nat.le_refl _
  chunks _ _ := rfl

section Step

variable {s₀ : VbufferTable} {o : AllocOutcome} {talloc : DynTallocr}

/-- The entry that is reached has not been touched. -/
theorem Reserving.needsRealloc_eq (h : Reserving bufts tallocs noAlloc outcome s₀ i s)
    (h₀ : Owned bufts s₀) (hlt : i < bufts.length) (hi : sharer bufts i = none) (talloc : DynTallocr) :
    s.needsRealloc talloc i = s₀.needsRealloc talloc i := by
  refine needsRealloc_congr (h.todo i (Nat.le_refl i)) fun p hp => h.chunks p ?_
  exact (h₀.live i hlt hi p hp).1

/-- An entry is done: its own pointer may have changed. -/
theorem Reserving.advance (h : Reserving bufts tallocs noAlloc outcome s₀ i s)
    (hown : RootsOwn bufts s') (hentry : ∀ j, j ≠ i → s'.entry j = s.entry j)
    (hdone : s'.entry i = s'.entry (root bufts i))
    (hheap : ∀ p, (∃ r < i, s.entry r = some p) ∨ p < s₀.heap.next → s'.heap.chunks p = s.heap.chunks p)
    (hnext : s.heap.next ≤ s'.heap.next)
    (hfits : sharer bufts i = none → s'.needsRealloc (tallocOf bufts tallocs i) i → s'.entry i = none ∧ noAlloc)
    (hkept : sharer bufts i = none → s₀.needsRealloc (tallocOf bufts tallocs i) i = false → s'.entry i = s₀.entry i)
    (hpassed : noAlloc = false → ¬Fails bufts tallocs outcome s₀ i) :
    Reserving bufts tallocs noAlloc outcome s₀ (i + 1) s' where
  toRootsOwn := hown
  done j hj := by
    rcases Nat.lt_succ_iff_lt_or_eq.mp hj with hj | rfl
    · have hroot : root bufts j ≤ j := (root_spec j).1
      rw [hentry j (by omega), hentry _ (by omega)]
      exact h.done j hj
    · exact hdone
  todo j hj := (hentry j (by omega)).trans (h.todo j (by omega))
  fits r hr hroot hneeds := by
    rcases Nat.lt_succ_iff_lt_or_eq.mp hr with hr | rfl
    · have hsame : s'.needsRealloc (tallocOf bufts tallocs r) r = s.needsRealloc (tallocOf bufts tallocs r) r :=
        needsRealloc_congr (hentry r (by omega)) fun p hp => hheap p (.inl ⟨r, hr, hp⟩)
      rw [hentry r (by omega)]
      exact h.fits r hr hroot (hsame ▸ hneeds)
    · exact hfits hroot hneeds
  kept r hr hroot hneeds := by
    rcases Nat.lt_succ_iff_lt_or_eq.mp hr with hr | rfl
    · exact (hentry r (by omega)).trans (h.kept r hr hroot hneeds)
    · exact hkept hroot hneeds
  passed hno r hr := by
    rcases Nat.lt_succ_iff_lt_or_eq.mp hr with hr | rfl
    · exact h.passed hno r hr
    · exact hpassed hno
  next_le := Nat.le_trans h.next_le hnext
  chunks p hp := (hheap p (.inr hp)).trans (h.chunks p hp)

/-- What an allocation leaves alone. -/
theorem alloc_entry_of_ne (hne : j ≠ i) : (s.alloc i talloc o).entry j = s.entry j := by
  unfold VbufferTable.alloc
  split
  · exact update_of_ne hne _ _
  · exact update_of_ne hne _ _

theorem alloc_chunks {p : Nat} (hp : p < s.heap.next) : (s.alloc i talloc o).heap.chunks p = s.heap.chunks p := by
  unfold VbufferTable.alloc
  split
  · rfl
  · exact update_of_ne (Nat.ne_of_lt hp) _ _

theorem alloc_next_le : s.heap.next ≤ (s.alloc i talloc o).heap.next := by
  unfold VbufferTable.alloc
  split
  · exact Nat.le_refl _
  · exact Nat.le_succ _

@[simp] theorem free_entry (p : Option Nat) : (s.free p).entry = s.entry := by
  cases p <;> rfl

@[simp] theorem free_next (p : Option Nat) : (s.free p).heap.next = s.heap.next := by
  cases p <;> rfl

@[simp] theorem free_chunks (p : Option Nat) : (s.free p).heap.chunks = s.heap.chunks := by
  cases p <;> rfl

/-- A root gives up its vbuffer. -/
theorem released_entry (r : Nat) : ((s.free (s.entry i)).set i none).entry r = if r = i then none else s.entry r := by
  change Function.update (s.free (s.entry i)).entry i none r = _
  rw [free_entry, update_apply]

theorem Reserving.step (h : Reserving bufts tallocs noAlloc outcome s₀ i s) (h₀ : Owned bufts s₀)
    (hlt : i < bufts.length) (ho : (outcome i).Fits) {ok : Bool}
    (hstep : s.reserveEntry bufts tallocs noAlloc outcome i = (ok, s')) :
    (ok = true ∧ Reserving bufts tallocs noAlloc outcome s₀ (i + 1) s') ∨
      (ok = false ∧ noAlloc = false ∧ Fails bufts tallocs outcome s₀ i ∧ RootsOwn bufts s' ∧
        s'.entry i = none ∧ ∀ j, j ≠ i → s'.entry j = s.entry j) := by
  by_cases hi : sharer bufts i = none
  · have hneeds := h.needsRealloc_eq h₀ hlt hi (tallocOf bufts tallocs i)
    have hlive : ∀ p, (∃ r < i, s.entry r = some p) ∨ p < s₀.heap.next → p < s.heap.next := by
      rintro p (⟨r, hr, hp⟩ | hp)
      · rw [h.done r hr] at hp
        have hle : root bufts r ≤ r := (root_spec r).1
        exact (h.live _ (by omega) (root_spec r).2.2 p hp).1
      · exact Nat.lt_of_lt_of_le hp h.next_le
    rw [reserveEntry_root hi] at hstep
    cases hre : s.needsRealloc (tallocOf bufts tallocs i) i with
    | false =>
      rw [hre, if_neg (by simp)] at hstep
      obtain ⟨rfl, rfl⟩ := Prod.mk.inj hstep
      refine .inl ⟨rfl, h.advance h.toRootsOwn (fun _ _ => rfl) (by rw [root_of_none hi])
        (fun _ _ => rfl) (Nat.le_refl _) (fun _ hneeds => ?_) (fun _ _ => h.todo i (Nat.le_refl i))
        fun _ hfails => ?_⟩
      · rw [hre] at hneeds
        cases hneeds
      · rw [Fails, ← hneeds, hre] at hfails
        exact absurd hfails.2.1 (by simp)
    | true =>
      have hrel := h.toRootsOwn.release hlt hi
      rw [hre, if_pos rfl] at hstep
      cases noAlloc with
      | true =>
        rw [if_pos rfl] at hstep
        obtain ⟨rfl, rfl⟩ := Prod.mk.inj hstep
        refine .inl ⟨rfl, h.advance hrel (fun j hj => ?_) (by rw [root_of_none hi])
          (fun p _ => ?_) (by simp [VbufferTable.set]) (fun _ _ => ?_) (fun _ hno => ?_)
          fun hno => absurd hno (by simp)⟩
        · rw [released_entry, if_neg hj]
        · simp [VbufferTable.set]
        · rw [released_entry, if_pos rfl]
          exact ⟨rfl, rfl⟩
        · rw [← hneeds, hre] at hno
          cases hno
      | false =>
        rw [if_neg (by simp)] at hstep
        have hnone : ((s.free (s.entry i)).set i none).entry i = none := by
          rw [released_entry, if_pos rfl]
        have hfresh : RootsOwn bufts (((s.free (s.entry i)).set i none).alloc i
            (tallocOf bufts tallocs i) (outcome i)) := hrel.fresh hlt hi hnone
        have hentry : ∀ j, j ≠ i → (((s.free (s.entry i)).set i none).alloc i
            (tallocOf bufts tallocs i) (outcome i)).entry j = s.entry j := by
          intro j hj
          rw [alloc_entry_of_ne hj, released_entry, if_neg hj]
        cases hchunks : allocChunks (tallocOf bufts tallocs i) (outcome i) with
        | none =>
          obtain ⟨rfl, rfl⟩ := Prod.mk.inj hstep
          refine .inr ⟨by rw [hchunks]; rfl, rfl, ⟨hi, hneeds ▸ hre, hchunks⟩, hfresh, ?_, hentry⟩
          unfold VbufferTable.alloc
          rw [hchunks]
          exact update_self ..
        | some sizes =>
          have hfit := needsRealloc_alloc (i := i) (s := (s.free (s.entry i)).set i none) ho
            hchunks
          obtain ⟨rfl, rfl⟩ := Prod.mk.inj hstep
          refine .inl ⟨by rw [hchunks]; rfl, h.advance hfresh hentry (by rw [root_of_none hi])
            (fun p hp => ?_) ?_ (fun _ hneeds => ?_) (fun _ hno => ?_) fun _ hfails => ?_⟩
          · have hlt := hlive p hp
            rw [alloc_chunks (by simpa [VbufferTable.set] using hlt)]
            simp [VbufferTable.set]
          · refine Nat.le_trans ?_ alloc_next_le
            simp [VbufferTable.set]
          · rw [hfit] at hneeds
            cases hneeds
          · rw [← hneeds, hre] at hno
            cases hno
          · rw [Fails, hchunks] at hfails
            exact absurd hfails.2.2 (by simp)
  · rw [h.share hi] at hstep
    obtain ⟨rfl, rfl⟩ := Prod.mk.inj hstep
    have hne : root bufts i ≠ i := fun heq => hi (heq ▸ (root_spec i).2.2)
    refine .inl ⟨rfl, h.advance (h.toRootsOwn.set hi _) (fun j hj => update_of_ne hj _ _) ?_
      (fun _ _ => rfl) (Nat.le_refl _) (fun hno => absurd hno hi) (fun hno => absurd hno hi)
      fun _ hfails => hi hfails.1⟩
    exact (update_self ..).trans (update_of_ne hne _ _).symm

/-- The loop from entry `i` on. -/
theorem Reserving.loop (h₀ : Owned bufts s₀) (ho : ∀ i, (outcome i).Fits) :
    ∀ (k : Nat) {i : Nat} {s s' : VbufferTable} {ok : Bool}, i + k = bufts.length →
      Reserving bufts tallocs noAlloc outcome s₀ i s →
      s.reserveEntries bufts tallocs noAlloc outcome (List.range' i k) = (ok, s') →
      (ok = true ∧ Reserving bufts tallocs noAlloc outcome s₀ bufts.length s') ∨
        (ok = false ∧ noAlloc = false ∧ ∃ j < bufts.length, Fails bufts tallocs outcome s₀ j ∧
          RootsOwn bufts s' ∧ s'.entry j = none ∧ ∃ τ,
          Reserving bufts tallocs noAlloc outcome s₀ j τ ∧ ∀ l, l ≠ j → s'.entry l = τ.entry l) := by
  intro k
  induction k with
  | zero =>
    intro i s s' ok hlen h hrun
    obtain ⟨rfl, rfl⟩ := Prod.mk.inj hrun
    exact .inl ⟨rfl, (Nat.add_zero i).symm.trans hlen ▸ h⟩
  | succ k ih =>
    intro i s s' ok hlen h hrun
    rw [range'_succ] at hrun
    unfold reserveEntries at hrun
    rcases hone : s.reserveEntry bufts tallocs noAlloc outcome i with ⟨ok', r⟩
    rw [hone] at hrun
    rcases h.step h₀ (by omega) (ho i) hone with ⟨rfl, hnext⟩ | ⟨rfl, hno, hfails, hown, hnone, heq⟩
    · exact ih (by omega) hnext hrun
    · obtain ⟨rfl, rfl⟩ := Prod.mk.inj hrun
      exact .inr ⟨rfl, hno, i, by omega, hfails, hown, hnone, s, h, heq⟩

end Step

/-- A reserve that fails at entry `k` leaves no later entry behind: those with the buffer
type of an earlier entry have one that keeps its vbuffer, and those with the buffer type of
`k` have none. -/
def CleanReserve (bufts : List Nat) (tallocs : Nat → DynTallocr) (noAlloc : Bool)
    (outcome : Nat → AllocOutcome) (s : VbufferTable) : Prop :=
  noAlloc = false → ∀ k < bufts.length, Fails bufts tallocs outcome s k →
    (∀ j < k, ¬Fails bufts tallocs outcome s j) → ∀ i < bufts.length, k < i →
      (root bufts i < k → s.needsRealloc (tallocOf bufts tallocs i) (root bufts i) = false) ∧
      (root bufts i = k → s.entry k = none)

/-- A reserve keeps the owners, unless it fails and leaves an entry behind. -/
theorem Owned.reserveEntries (h : Owned bufts s) (ho : ∀ i, (outcome i).Fits)
    (hclean : CleanReserve bufts tallocs noAlloc outcome s) {ok : Bool}
    (hrun : s.reserveEntries bufts tallocs noAlloc outcome (List.range bufts.length) = (ok, s')) :
    Owned bufts s' := by
  rw [range_eq_range'] at hrun
  rcases Reserving.loop h ho bufts.length (Nat.zero_add _) h.reserving hrun with
    ⟨-, hend⟩ | ⟨-, hno, k, hk, hfails, hown, hnone, τ, hτ, heq⟩
  · exact ⟨hend.toRootsOwn, hend.done⟩
  · refine ⟨hown, fun i hi => ?_⟩
    have hroot : root bufts i ≤ i := (root_spec i).1
    rcases Nat.lt_trichotomy i k with hlt | rfl | hgt
    · rw [heq i (by omega), heq (root bufts i) (by omega)]
      exact hτ.done i hlt
    · rw [root_of_none hfails.1]
    · obtain ⟨hkeeps, hsame⟩ := hclean hno k hk hfails (hτ.passed hno) i hi hgt
      rw [heq i (by omega), hτ.todo i (by omega), h.copy i hi]
      rcases Nat.lt_trichotomy (root bufts i) k with hr | hr | hr
      · rw [heq _ (by omega)]
        refine (hτ.kept _ hr (root_spec i).2.2 ?_).symm
        rw [tallocOf_root]
        exact hkeeps hr
      · rw [hr, hnone]
        exact hsame hr
      · rw [heq _ (by omega), hτ.todo _ (by omega)]

/-! ## Freeing everything -/

/-- Every pointer in the table is freed once. -/
theorem freeAll_frees (s : VbufferTable) (n p : Nat) :
    (s.freeAll n).heap.frees p = s.heap.frees p + if ∃ i < n, s.entry i = some p then 1 else 0 := by
  refine And.right (a := (s.freeAll n).entry = s.entry) ?_
  unfold freeAll
  refine Loops.foldl_range_inv (I := fun k (t : VbufferTable) => t.entry = s.entry ∧ t.heap.frees p =
    s.heap.frees p + if ∃ i < k, s.entry i = some p then 1 else 0) ⟨rfl, by simp⟩ ?_
  rintro k - t ⟨hentry, hfrees⟩
  have hsucc : (∃ i < k + 1, s.entry i = some p) ↔ (∃ i < k, s.entry i = some p) ∨ s.entry k = some p := by
    constructor
    · rintro ⟨i, hi, hp⟩
      rcases Nat.lt_succ_iff_lt_or_eq.mp hi with hi | rfl
      · exact .inl ⟨i, hi, hp⟩
      · exact .inr hp
    · rintro (⟨i, hi, hp⟩ | hp)
      · exact ⟨i, Nat.lt_succ_of_lt hi, hp⟩
      · exact ⟨k, Nat.lt_succ_self k, hp⟩
  rw [hentry]
  split
  · next hfreed =>
    refine ⟨hentry, ?_⟩
    obtain ⟨j, hj, hjk⟩ := List.any_eq_true.mp hfreed
    have hjk := of_decide_eq_true hjk
    rw [hfrees]
    congr 1
    refine if_congr ⟨fun h => hsucc.mpr (.inl h), fun h => (hsucc.mp h).elim id fun hp => ?_⟩ rfl rfl
    exact ⟨j, mem_range.mp hj, hjk.trans hp⟩
  · next hfirst =>
    have hno : ∀ j < k, s.entry j ≠ s.entry k := by
      intro j hj heq
      exact hfirst (List.any_eq_true.mpr ⟨j, mem_range.mpr hj, decide_eq_true heq⟩)
    refine ⟨by rw [free_entry, hentry], ?_⟩
    cases hk : s.entry k with
    | none =>
      change t.heap.frees p = _
      rw [hfrees]
      simp only [hsucc, hk, reduceCtorEq, or_false]
    | some q =>
      change Function.update t.heap.frees q (t.heap.frees q + 1) p = _
      rcases eq_or_ne p q with rfl | hne
      · have hnot : ¬∃ i < k, s.entry i = some p := fun ⟨i, hi, hp⟩ =>
          hno i hi (hp.trans hk.symm)
        rw [update_self, hfrees, if_neg hnot, if_pos (hsucc.mpr (.inr hk))]
      · rw [update_of_ne hne, hfrees]
        simp only [hsucc, hk, some.injEq, hne.symm, or_false]

/-- `ggml_gallocr_free` releases every vbuffer exactly once. -/
theorem Owned.freeAll_once (h : Owned bufts s) {p : Nat} (hp : p < s.heap.next) :
    (s.freeAll bufts.length).heap.frees p = 1 := by
  rw [freeAll_frees]
  split
  · next hin =>
    obtain ⟨i, hi, hentry⟩ := hin
    rw [h.copy i hi] at hentry
    have hle : root bufts i ≤ i := (root_spec i).1
    rw [(h.live _ (by omega) (root_spec i).2.2 p hentry).2]
  · next hout =>
    rcases h.once p hp with ⟨r, hr, -, hentry⟩ | hone
    · exact absurd ⟨r, hr, hentry⟩ hout
    · rw [hone]

end VbufferTable

/-! ## Runs of the allocator -/

/-- The allocator, and whether the last reserve failed. -/
structure GallocrRun where
  gallocr : Gallocr
  failed : Bool := false

inductive GallocrOp where
  | reserve (G : GgmlCgraph) (nodeBufferIds leafBufferIds : Nat → Int) (noAlloc : Bool)
      (outcome : Nat → AllocOutcome)
  | allocGraph (G : GgmlCgraph) (outcome : Nat → AllocOutcome)

namespace GallocrRun

variable (B : BufferTypes) (bufts : List Nat)

/-- One call; `none` if it ends the process. -/
def step (r : GallocrRun) : GallocrOp → Option GallocrRun
  | .reserve G nodeBufferIds leafBufferIds noAlloc outcome => do
      let (ok, g) ← r.gallocr.reserveNImpl G B bufts nodeBufferIds leafBufferIds noAlloc outcome
      return ⟨g, !ok⟩
  | .allocGraph G outcome => do
      let (placed, g) ← r.gallocr.allocGraph G B bufts outcome
      let reserves := r.gallocr.needsRealloc G B bufts && decide (bufts.length = 1)
      return ⟨g, if reserves then placed.isNone else r.failed⟩

def init : GallocrRun := ⟨Gallocr.newN B, false⟩

end GallocrRun

/-- Backend buffers have the size that was asked for. -/
def GallocrOp.Ok : GallocrOp → Prop
  | .reserve _ _ _ _ outcome => ∀ i, (outcome i).Fits
  | .allocGraph _ outcome => ∀ i, (outcome i).Fits

/-- The condition under which a call keeps the owners. -/
def GallocrOp.Clean (B : BufferTypes) (bufts : List Nat) (r : GallocrRun) : GallocrOp → Prop
  | .reserve G nodeBufferIds leafBufferIds noAlloc outcome =>
    ∀ planner, r.gallocr.plan G B bufts nodeBufferIds leafBufferIds = some planner →
      VbufferTable.CleanReserve bufts planner.tallocs noAlloc outcome r.gallocr.buffers
  | .allocGraph _ _ => True

structure GallocrRun.Sound (B : BufferTypes) (bufts : List Nat) (r : GallocrRun) : Prop where
  live : ∀ i < bufts.length, ∀ p, r.gallocr.buffers.entry i = some p →
    r.gallocr.buffers.heap.frees p = 0
  same : ∀ i < bufts.length, ∀ j < bufts.length,
    r.gallocr.buffers.entry i = r.gallocr.buffers.entry j ↔ bufts[i]? = bufts[j]? ∨
      r.gallocr.buffers.entry i = none ∧ r.gallocr.buffers.entry j = none
  once : ∀ p < r.gallocr.buffers.heap.next,
    (r.gallocr.buffers.freeAll bufts.length).heap.frees p = 1
  /-- After a failed reserve a graph is only allocated if it is reserved again. -/
  stale : r.failed → ∀ G outcome placed g, G.nodes ≠ [] ∨ G.leafs ≠ [] →
    r.gallocr.allocGraph G B bufts outcome = some (some placed, g) →
    r.gallocr.reserveNImpl G B bufts (fun _ => 0) (fun _ => 0) false outcome = some (true, g)

section Runs

open VbufferTable (Owned CleanReserve RootsOwn root root_spec root_eq_iff)

variable {B : BufferTypes} {bufts : List Nat} {G : GgmlCgraph} {g g' : Gallocr} {noAlloc : Bool}
  {outcome : Nat → AllocOutcome} {r : GallocrRun}

/-- A reserve: the plan and the loop over the buffers. -/
theorem reserveNImpl_eq_some {nodeBufferIds leafBufferIds : Nat → Int} {ok : Bool}
    (h : g.reserveNImpl G B bufts nodeBufferIds leafBufferIds noAlloc outcome = some (ok, g')) :
    ∃ planner, g.plan G B bufts nodeBufferIds leafBufferIds = some planner ∧
      g.buffers.reserveEntries bufts planner.tallocs noAlloc outcome (List.range bufts.length) = (ok, g'.buffers) ∧
      (ok = false → g'.nodeAllocs = [] ∧ g'.leafAllocs = []) := by
  obtain ⟨planner, hplan, h⟩ := bind_eq_some_iff.mp h
  obtain ⟨rfl, rfl⟩ := Prod.mk.inj (some.inj h)
  exact ⟨planner, hplan, rfl, fun hok => ⟨if_neg (by rw [hok]; simp), if_neg (by rw [hok]; simp)⟩⟩

structure GallocrRun.Inv (bufts : List Nat) (r : GallocrRun) : Prop where
  owned : Owned bufts r.gallocr.buffers
  empty : r.failed → r.gallocr.nodeAllocs = [] ∧ r.gallocr.leafAllocs = []

theorem GallocrRun.Inv.reserve (h : r.Inv bufts) {nodeBufferIds leafBufferIds : Nat → Int} {ok : Bool}
    (ho : ∀ i, (outcome i).Fits)
    (hclean : ∀ planner, r.gallocr.plan G B bufts nodeBufferIds leafBufferIds = some planner →
      CleanReserve bufts planner.tallocs noAlloc outcome r.gallocr.buffers)
    (hrun : r.gallocr.reserveNImpl G B bufts nodeBufferIds leafBufferIds noAlloc outcome =
      some (ok, g')) : GallocrRun.Inv bufts ⟨g', !ok⟩ := by
  obtain ⟨planner, hplan, hloop, hempty⟩ := reserveNImpl_eq_some hrun
  refine ⟨h.owned.reserveEntries ho (hclean planner hplan) hloop, fun hfailed => hempty ?_⟩
  simpa using hfailed

/-- With a single entry nothing is left behind. -/
theorem cleanReserve_of_single (hone : bufts.length = 1) {tallocs : Nat → DynTallocr}
    {s : VbufferTable} : CleanReserve bufts tallocs noAlloc outcome s := by
  intro _ k hk _ _ i hi hki
  omega

/-- A graph that is not empty does not fit a plan that was given up. -/
theorem needsRealloc_of_empty (hnodes : g.nodeAllocs = []) (hleafs : g.leafAllocs = [])
    (hG : G.nodes ≠ [] ∨ G.leafs ≠ []) : g.needsRealloc G B bufts = true := by
  unfold Gallocr.needsRealloc
  rw [hnodes, hleafs]
  split
  · rfl
  · next hn =>
    split
    · rfl
    · next hl =>
      rw [not_not, length_nil, eq_comm, length_eq_zero_iff] at hn hl
      exact absurd hG (by simp [hn, hl])

theorem GallocrRun.Inv.step {r' : GallocrRun} (h : r.Inv bufts) {op : GallocrOp} (hok : op.Ok)
    (hclean : op.Clean B bufts r) (hstep : r.step B bufts op = some r') : r'.Inv bufts := by
  cases op with
  | reserve G nodeBufferIds leafBufferIds noAlloc outcome =>
    obtain ⟨⟨ok, g⟩, hrun, hr⟩ := bind_eq_some_iff.mp hstep
    obtain rfl := some.inj hr
    exact h.reserve hok hclean hrun
  | allocGraph G outcome =>
    obtain ⟨⟨placed, g⟩, hrun, hr⟩ := bind_eq_some_iff.mp hstep
    obtain rfl := some.inj hr
    unfold Gallocr.allocGraph at hrun
    cases hneeds : r.gallocr.needsRealloc G B bufts with
    | false =>
      rw [hneeds, if_neg (by simp)] at hrun
      obtain ⟨placed', -, heq⟩ := bind_eq_some_iff.mp hrun
      obtain ⟨rfl, rfl⟩ := Prod.mk.inj (some.inj heq)
      exact h
    | true =>
      rw [hneeds, if_pos rfl] at hrun
      split at hrun
      · next hone =>
        obtain ⟨⟨ok, g₁⟩, hreserve, hrun⟩ := bind_eq_some_iff.mp hrun
        have hinv := h.reserve hok (fun _ _ => cleanReserve_of_single hone) hreserve
        cases ok with
        | true =>
          dsimp only at hrun
          rw [if_pos rfl] at hrun
          obtain ⟨placed', -, heq⟩ := bind_eq_some_iff.mp hrun
          obtain ⟨rfl, rfl⟩ := Prod.mk.inj (some.inj heq)
          simpa [hone] using hinv
        | false =>
          obtain ⟨rfl, rfl⟩ := Prod.mk.inj (some.inj hrun)
          simpa [hone] using hinv
      · next hone =>
        obtain ⟨rfl, rfl⟩ := Prod.mk.inj (some.inj hrun)
        simpa [hone] using h

theorem init_inv : (GallocrRun.init B).Inv bufts where
  owned :=
    { live := fun _ _ _ p hp => absurd hp (by simp [GallocrRun.init, Gallocr.newN])
      uniq := fun _ _ _ _ _ _ p hp => absurd hp (by simp [GallocrRun.init, Gallocr.newN])
      once := fun p hp => absurd hp (Nat.not_lt_zero p)
      beyond := fun _ _ => rfl
      copy := fun _ _ => rfl }
  empty h := absurd h (by simp [GallocrRun.init])

theorem GallocrRun.Inv.sound (h : r.Inv bufts) : r.Sound B bufts where
  live i hi p hp := by
    have hle : root bufts i ≤ i := (root_spec i).1
    rw [h.owned.copy i hi] at hp
    exact (h.owned.live _ (by omega) (root_spec i).2.2 p hp).2
  same i hi j hj := by
    have hlei : root bufts i ≤ i := (root_spec i).1
    have hlej : root bufts j ≤ j := (root_spec j).1
    constructor
    · intro heq
      cases hp : r.gallocr.buffers.entry i with
      | none => exact .inr ⟨rfl, heq ▸ hp⟩
      | some p =>
        have hpi := (h.owned.copy i hi).symm.trans hp
        have hpj := (h.owned.copy j hj).symm.trans (heq ▸ hp)
        refine .inl (root_eq_iff.mp ?_)
        exact h.owned.uniq _ (by omega) _ (by omega) (root_spec i).2.2 (root_spec j).2.2 p hpi hpj
    · rintro (heq | ⟨hi, hj⟩)
      · rw [h.owned.copy i hi, h.owned.copy j hj, root_eq_iff.mpr heq]
      · rw [hi, hj]
  once p hp := h.owned.freeAll_once hp
  stale hfailed G outcome placed g hG hrun := by
    obtain ⟨hnodes, hleafs⟩ := h.empty hfailed
    unfold Gallocr.allocGraph at hrun
    rw [needsRealloc_of_empty hnodes hleafs hG, if_pos rfl] at hrun
    split at hrun
    · obtain ⟨⟨ok, g₁⟩, hreserve, hrun⟩ := bind_eq_some_iff.mp hrun
      cases ok with
      | true =>
        dsimp only at hrun
        rw [if_pos rfl] at hrun
        obtain ⟨placed', -, heq⟩ := bind_eq_some_iff.mp hrun
        obtain ⟨-, rfl⟩ := Prod.mk.inj (some.inj heq)
        exact hreserve
      | false => cases hrun
    · cases hrun

/-- **Ownership.**  In every run whose failed reserves leave no entry behind, the entries
hold live vbuffers, equal pointers mean equal buffer types, `ggml_gallocr_free` releases
every vbuffer once, and a failed reserve is not used. -/
theorem reaches_sound {r : GallocrRun} (h : Runs.Reaches (GallocrRun.step B bufts)
    (fun r op => op.Ok ∧ op.Clean B bufts r) (GallocrRun.init B) r) : r.Sound B bufts :=
  (h.inv (fun _ _ _ hr hop hstep => hr.step hop.1 hop.2 hstep) init_inv).sound

end Runs

/-! ## A reserve that leaves an entry behind -/

/-- Every tensor takes as many bytes as its first extent. -/
def bytesOnly : BufferTypes where
  alignment _ := 8
  maxSize _ := 2 ^ 32
  allocSize _ t := t.layout.ne.headD 0

/-- A graph of one leaf. -/
def oneLeaf (size : Nat) : GgmlCgraph where
  tensor _ := { op := .none, layout := ⟨0, [size], [1]⟩ }
  nodes := []
  leafs := [0]

def succeeds : AllocOutcome := ⟨true, fun _ size => some size⟩

theorem succeeds_fits : succeeds.Fits := by
  intro n size got h
  exact Nat.le_of_eq (some.inj h)

def runsOut : AllocOutcome := ⟨true, fun _ _ => none⟩

theorem runsOut_fits : runsOut.Fits := by
  intro n size got h
  cases h

theorem allocChunks_succeeds (talloc : DynTallocr) :
    VbufferTable.allocChunks talloc succeeds = some (talloc.chunks.map (·.maxSize)) := by
  unfold VbufferTable.allocChunks succeeds
  rw [if_pos rfl, Loops.mapM_eq_some, forall₂_iff_get]
  simp

theorem cleanReserve_succeeds {bufts : List Nat} {tallocs : Nat → DynTallocr} {noAlloc : Bool}
    {s : VbufferTable} : VbufferTable.CleanReserve bufts tallocs noAlloc (fun _ => succeeds) s := by
  intro _ k _ hfails
  rw [VbufferTable.Fails, allocChunks_succeeds] at hfails
  exact absurd hfails.2.2 (by simp)

/-- A reserve of a leaf, for two entries with one buffer type. -/
def reserveLeaf (size : Nat) (outcome : AllocOutcome) : GallocrOp :=
  .reserve (oneLeaf size) (fun _ => 0) (fun _ => 0) false fun _ => outcome

theorem reaches_sound_leaf : ∃ r,
    [reserveLeaf 8 succeeds, reserveLeaf 16 succeeds].foldlM (GallocrRun.step bytesOnly [0, 0])
      (GallocrRun.init bytesOnly) = some r ∧ r.Sound bytesOnly [0, 0] := by
  have hrun : ([reserveLeaf 8 succeeds, reserveLeaf 16 succeeds].foldlM
      (GallocrRun.step bytesOnly [0, 0]) (GallocrRun.init bytesOnly)).isSome := by decide +kernel
  obtain ⟨r, hr⟩ := isSome_iff_exists.mp hrun
  refine ⟨r, hr, reaches_sound (Runs.Reaches.refl.ofList (fun op hop r => ?_) hr)⟩
  simp only [mem_cons, not_mem_nil, or_false] at hop
  rcases hop with rfl | rfl
  · exact ⟨fun _ => succeeds_fits, fun _ _ => cleanReserve_succeeds⟩
  · exact ⟨fun _ => succeeds_fits, fun _ _ => cleanReserve_succeeds⟩

/-- The second entry is left with a vbuffer that was freed, and it is freed again. -/
theorem failed_reserve_dangles : ∃ r,
    Runs.Reaches (GallocrRun.step bytesOnly [0, 0]) (fun _ op => op.Ok) (GallocrRun.init bytesOnly) r ∧
      r.gallocr.buffers.entry 1 = some 0 ∧ r.gallocr.buffers.heap.frees 0 = 1 ∧
      (r.gallocr.buffers.freeAll 2).heap.frees 0 = 2 := by
  have hrun : (([reserveLeaf 8 succeeds, reserveLeaf 16 runsOut].foldlM
      (GallocrRun.step bytesOnly [0, 0]) (GallocrRun.init bytesOnly)).map fun r =>
        decide (r.gallocr.buffers.entry 1 = some 0 ∧ r.gallocr.buffers.heap.frees 0 = 1 ∧
          (r.gallocr.buffers.freeAll 2).heap.frees 0 = 2)) = some true := by decide +kernel
  obtain ⟨r, hr, hval⟩ := map_eq_some_iff.mp hrun
  refine ⟨r, Runs.Reaches.refl.ofList (fun op hop _ => ?_) hr, of_decide_eq_true hval⟩
  simp only [mem_cons, not_mem_nil, or_false] at hop
  rcases hop with rfl | rfl
  · exact fun _ => succeeds_fits
  · exact fun _ => runsOut_fits

end LlamaCpp
