import LlamaCpp.Alloc.Lifetimes
import LlamaCpp.Alloc.Reserve
import LlamaCpp.Lib.Loops

/-!
# Live tensors do not alias

`Placed` is the invariant of the planner: the regions of the tensors that are allocated are
apart from each other and from the free blocks, a tensor that is not allocated any more has no
uses left, and where two regions meet one tensor may write into the other.  `Counts` ties the
counters to the edges that are left, and so to the uses.

`plan_noAlias` is the result for a whole plan.
-/

namespace LlamaCpp

open Option

/-! ## Aligned sizes -/

variable {a : Nat}

theorem alignedOffset_of_dvd {x : Nat} (h : a ∣ x) : alignedOffset x a = x := by
  rw [alignedOffset, Nat.mod_eq_zero_of_dvd h, Nat.sub_zero, Nat.mod_self, Nat.add_zero]

theorem le_alignedOffset (x a : Nat) : x ≤ alignedOffset x a := Nat.le_add_right ..

/-- The least multiple that is not below the size. -/
theorem alignedOffset_eq (x : Nat) (ha : 0 < a) : alignedOffset x a = (x + (a - 1)) / a * a := by
  have hdiv := Nat.div_add_mod x a
  have hlt := Nat.mod_lt x ha
  unfold alignedOffset
  generalize x / a = q at hdiv
  generalize x % a = r at hdiv hlt ⊢
  subst hdiv
  rcases Nat.eq_zero_or_pos r with rfl | hr
  · have hq : (a * q + 0 + (a - 1)) / a = q := by
      rw [Nat.add_zero, Nat.mul_add_div ha, Nat.div_eq_of_lt (by omega), Nat.add_zero]
    rw [hq, Nat.sub_zero, Nat.mod_self, Nat.add_zero, Nat.mul_comm]
  · have hone : (r + (a - 1)) / a = 1 := by
      have hsum : r + (a - 1) = a + (r - 1) := by omega
      rw [hsum, Nat.add_div_left _ ha, Nat.div_eq_of_lt (by omega)]
    have hq : (a * q + r + (a - 1)) / a = q + 1 := by
      rw [Nat.add_assoc, Nat.mul_add_div ha, hone]
    rw [hq, Nat.mod_eq_of_lt (by omega), Nat.add_mul, Nat.mul_comm q a]
    omega

theorem alignedOffset_zero (x : Nat) : alignedOffset x 0 = x := by
  simp [alignedOffset]

theorem dvd_alignedOffset (x : Nat) (ha : 0 < a) : a ∣ alignedOffset x a := by
  rw [alignedOffset_eq x ha]
  exact Nat.dvd_mul_left ..

theorem alignedOffset_mono {x y : Nat} (h : x ≤ y) : alignedOffset x a ≤ alignedOffset y a := by
  rcases Nat.eq_zero_or_pos a with rfl | ha
  · rwa [alignedOffset_zero, alignedOffset_zero]
  · rw [alignedOffset_eq x ha, alignedOffset_eq y ha]
    exact Nat.mul_le_mul_right a (Nat.div_le_div_right (Nat.add_le_add_right h _))

theorem alignedOffset_sub {x y : Nat} :
    alignedOffset (alignedOffset y a - alignedOffset x a) a = alignedOffset y a - alignedOffset x a := by
  rcases Nat.eq_zero_or_pos a with rfl | ha
  · rw [alignedOffset_zero]
  · exact alignedOffset_of_dvd (Nat.dvd_sub (dvd_alignedOffset y ha) (dvd_alignedOffset x ha))

namespace Planner

variable {G : GgmlCgraph} {B : BufferTypes} {bufts : List Nat} {g g' : Planner} {t u x y : Nat}

/-! ## What one call does -/

@[simp] theorem modify_tallocs (f : HashNode → HashNode) : (g.modify t f).tallocs = g.tallocs := rfl

theorem modify_hash (f : HashNode → HashNode) (u : Nat) :
    (g.modify t f).hash u = if u = t then f (g.hash t) else g.hash u := Function.update_apply ..

@[simp] theorem setTalloc_hash (b : Nat) (talloc : DynTallocr) : (g.setTalloc b talloc).hash = g.hash := rfl

theorem setTalloc_tallocs (b c : Nat) (talloc : DynTallocr) :
    (g.setTalloc b talloc).tallocs c = if c = b then talloc else g.tallocs c :=
  Function.update_apply ..

/-- The parent whose place is taken over: it is not external and not an output, and this is
its last child. -/
structure Reusable (G : GgmlCgraph) (g : Planner) (node parent : Nat) : Prop where
  mem : parent ∈ (G.tensor node).parents
  allocated : (g.hash parent).allocated
  output : ¬(G.tensor parent).output
  layout : (G.tensor node).layout = (G.tensor parent).layout
  children : (g.hash parent).nChildren = 1
  views : (g.hash parent).nViews = 0

/-- The size that a tensor takes in buffer type `b`. -/
def paddedSize (G : GgmlCgraph) (B : BufferTypes) (g : Planner) (t b : Nat) : Nat :=
  alignedOffset (B.allocSize b (G.tensor t)) (g.tallocs b).alignment

/-- What `ggml_gallocr_allocate_node` does. -/
inductive Allocates (G : GgmlCgraph) (B : BufferTypes) (bufts : List Nat) (g : Planner) (t : Nat) :
    Planner → Prop where
  | skip (h : ¬G.Own t ∨ (g.hash t).allocated) : Allocates G B bufts g t g
  | fresh (hown : G.Own t) (hnew : ¬(g.hash t).allocated) {b id : Nat} {addr : BufferAddress}
      {talloc : DynTallocr} (hb : bufts[id]? = some b)
      (halloc : DynTallocr.Allocated (g.tallocs b) (paddedSize G B g t b) addr talloc) {g' : Planner}
      (htallocs : ∀ c, g'.tallocs c = if c = b then talloc else g.tallocs c)
      (hhash : ∀ u, g'.hash u = if u = t then
        { g.hash t with allocated := true, bufferId := id, addr := addr } else g.hash u) :
      Allocates G B bufts g t g'
  | reuse (hown : G.Own t) (hnew : ¬(g.hash t).allocated) {p b : Nat} (hne : p ≠ t)
      (hop : (G.tensor t).op.canInplace) (hp : Reusable G g t p)
      (hb : bufts[(g.hash p).bufferId]? = some b)
      (hle : paddedSize G B g t b ≤ paddedSize G B g p b) {g' : Planner}
      (halign : ∀ c, (g'.tallocs c).alignment = (g.tallocs c).alignment)
      (hlen : ∀ c, (g'.tallocs c).chunks.length = (g.tallocs c).chunks.length)
      (hcover : ∀ c q, (g'.tallocs c).cover q = (g.tallocs c).cover q + if c = b then
        DynTallocr.inRegion ⟨(g.hash p).addr.chunk, (g.hash p).addr.offset + paddedSize G B g t b⟩
          (paddedSize G B g p b - paddedSize G B g t b) q else 0)
      (hhash : ∀ u, g'.hash u = if u = t then
        { g.hash t with allocated := true, bufferId := (g.hash p).bufferId, addr := (g.hash p).addr }
        else if u = p then { g.hash p with allocated := false } else g.hash u) :
      Allocates G B bufts g t g'

/-- Freeing the tail of a region that is taken over. -/
theorem freeExtraSpace_eq_some (h : g.freeExtraSpace G B bufts t x = some g')
    (hid : (g.hash t).bufferId = (g.hash x).bufferId) :
    ∃ b, bufts[(g.hash x).bufferId]? = some b ∧ paddedSize G B g t b ≤ paddedSize G B g x b ∧
      g'.hash = g.hash ∧ (∀ c, (g'.tallocs c).alignment = (g.tallocs c).alignment) ∧
      (∀ c, (g'.tallocs c).chunks.length = (g.tallocs c).chunks.length) ∧
      ∀ c q, (g'.tallocs c).cover q = (g.tallocs c).cover q + if c = b then
        DynTallocr.inRegion ⟨(g.hash x).addr.chunk, (g.hash x).addr.offset + paddedSize G B g t b⟩
          (paddedSize G B g x b - paddedSize G B g t b) q else 0 := by
  obtain ⟨b, hb, h⟩ := bind_eq_some_iff.mp h
  obtain ⟨b', hb', h⟩ := bind_eq_some_iff.mp h
  obtain rfl : b = b' := some.inj (hb.symm.trans (hid ▸ hb'))
  dsimp only at h
  split at h
  · cases h
  · next hsize =>
    have hle : paddedSize G B g t b ≤ paddedSize G B g x b :=
      alignedOffset_mono (Nat.not_lt.mp hsize)
    refine ⟨b, hb, hle, ?_⟩
    split at h
    · obtain ⟨talloc, hfree, h⟩ := bind_eq_some_iff.mp h
      obtain rfl := some.inj h
      have hfreed := DynTallocr.freeBytes_freed hfree
      rw [alignedOffset_sub] at hfreed
      refine ⟨rfl, fun c => ?_, fun c => ?_, fun c q => ?_⟩
      · rw [setTalloc_tallocs]
        split
        · next hc => rw [hc, hfreed.alignment]
        · rfl
      · rw [setTalloc_tallocs]
        split
        · next hc => rw [hc, hfreed.length_eq]
        · rfl
      · rw [setTalloc_tallocs]
        split
        · next hc =>
          rw [hc, hfreed.cover]
          rfl
        · rw [Nat.add_zero]
    · next hno =>
      obtain rfl := some.inj h
      have hzero : paddedSize G B g x b - paddedSize G B g t b = 0 :=
        Nat.sub_eq_zero_of_le (Nat.not_lt.mp hno)
      refine ⟨rfl, fun _ => rfl, fun _ => rfl, fun c q => ?_⟩
      have hnone : ∀ addr, DynTallocr.inRegion addr 0 q = 0 := by
        intro addr
        unfold DynTallocr.inRegion within
        split_ifs <;> omega
      rw [hzero, hnone, ite_self, Nat.add_zero]

def AllocatedOwn (G : GgmlCgraph) (g : Planner) : Prop := ∀ t, (g.hash t).allocated → G.Own t

theorem reusable_eq_some {node parent owner : Nat} (hg : AllocatedOwn G g)
    (hmem : parent ∈ (G.tensor node).parents) (h : g.reusable G node parent = some owner) :
    owner = parent ∧ Reusable G g node parent := by
  unfold reusable at h
  dsimp only at h
  split at h
  · cases h
  · next hown =>
    have halloc : (g.hash parent).allocated = true := by simpa [isOwn] using hown
    have hview := (hg parent halloc).1
    split at h
    · cases h
    · next hout =>
      split at h
      · cases h
      · next hlayout =>
        split at h
        · next hcount =>
          rw [hview] at h
          refine ⟨(some.inj h).symm, hmem, halloc, fun ho => hout ?_, not_not.mp hlayout, hcount.1, hcount.2⟩
          rw [ho, Bool.true_or]
        · cases h

theorem isAllocated_or_view {t : Nat} :
    (g.isAllocated G t || (G.tensor t).isView) = true ↔ ¬G.Own t ∨ (g.hash t).allocated := by
  simp only [isAllocated, isOwn, GgmlTensor.isView, Bool.or_eq_true, GgmlCgraph.Own, isSome_iff_ne_none, ne_eq]
  tauto

theorem allocateNode_allocates (hg : AllocatedOwn G g)
    (hself : (G.tensor t).op.canInplace → G.Own t → ¬(G.tensor t).output →
      (g.hash t).nChildren = 1 → t ∉ (G.tensor t).parents)
    {bufferId : Int} (h : g.allocateNode G B bufts t bufferId = some g') :
    Allocates G B bufts g t g' := by
  unfold allocateNode at h
  split at h
  · cases h
  · split at h
    · next hskip =>
      obtain rfl := some.inj h
      exact .skip (isAllocated_or_view.mp hskip)
    · next hskip =>
      rw [isAllocated_or_view, not_or, not_not] at hskip
      obtain ⟨hown, hnew⟩ := hskip
      dsimp only at h
      set g₁ := g.modify t fun hn => { hn with allocated := true } with hg₁
      have hhash₁ : ∀ u, u ≠ t → g₁.hash u = g.hash u := by
        intro u hne
        rw [hg₁, modify_hash, if_neg hne]
      cases hfind : g₁.findReusable G t with
      | none =>
        rw [hfind] at h
        obtain ⟨b, hb, h⟩ := bind_eq_some_iff.mp h
        obtain ⟨⟨addr, talloc⟩, halloc, h⟩ := bind_eq_some_iff.mp h
        obtain rfl := some.inj h
        refine .fresh hown hnew hb (DynTallocr.alloc_allocated halloc) (fun c => ?_) fun u => ?_
        · rw [modify_tallocs, setTalloc_tallocs]
          rfl
        · rw [modify_hash, setTalloc_hash]
          split
          · rw [hg₁, modify_hash, if_pos rfl]
          · next hne => exact hhash₁ u hne
      | some found =>
        obtain ⟨p, owner⟩ := found
        rw [hfind] at h
        have hown₁ : AllocatedOwn G g₁ := by
          intro u hu
          rcases eq_or_ne u t with rfl | hne
          · exact hown
          · rw [hhash₁ u hne] at hu
            exact hg u hu
        unfold findReusable at hfind
        split at hfind
        · next hop =>
          obtain ⟨p', hmem, hp'⟩ := List.exists_of_findSome?_eq_some hfind
          obtain ⟨owner', hreuse, heq⟩ := map_eq_some_iff.mp hp'
          obtain ⟨rfl, rfl⟩ := Prod.mk.inj heq
          obtain ⟨rfl, hr⟩ := reusable_eq_some hown₁ hmem hreuse
          have hne : owner' ≠ t := by
            rintro rfl
            have hone := hr.children
            rw [hg₁, modify_hash, if_pos rfl] at hone
            exact hself hop hown hr.output hone hmem
          set g₂ := g₁.modify t fun hn =>
            { hn with bufferId := (g₁.hash owner').bufferId, addr := (g₁.hash owner').addr } with hg₂
          set g₃ := g₂.modify owner' fun hn => { hn with allocated := false } with hg₃
          set g₄ := g₃.modify owner' fun hn => { hn with allocated := false } with hg₄
          have hhash₄ : ∀ u, g₄.hash u = if u = t then
              { g.hash t with
                allocated := true
                bufferId := (g.hash owner').bufferId
                addr := (g.hash owner').addr }
              else if u = owner' then { g.hash owner' with allocated := false }
              else g.hash u := by
            intro u
            simp only [hg₄, hg₃, hg₂, hg₁, modify_hash, if_neg hne, if_true]
            split_ifs with h1 h2
            · exact absurd (h1.symm.trans h2) hne
            · rfl
            · rfl
            · rfl
          have howner : g₄.hash owner' = { g.hash owner' with allocated := false } := by
            rw [hhash₄, if_neg hne, if_pos rfl]
          have hnode : (g₄.hash t).bufferId = (g₄.hash owner').bufferId := by
            rw [howner, hhash₄, if_pos rfl]
          have hp := hhash₁ owner' hne
          obtain ⟨b, hb, hle, hhash, halign, hlen, hcover⟩ := freeExtraSpace_eq_some h hnode
          rw [howner] at hb hcover
          exact .reuse hown hnew hne hop ⟨hr.mem, hp ▸ hr.allocated, hr.output, hr.layout,
            hp ▸ hr.children, hp ▸ hr.views⟩ hb hle halign hlen hcover fun u => by
              rw [hhash, hhash₄]
        · cases hfind

/-! ## The regions -/

/-- Byte `q` of the chunks for buffer type `b` belongs to the region of `t`. -/
def Holds (G : GgmlCgraph) (B : BufferTypes) (bufts : List Nat) (g : Planner) (t b : Nat)
    (q : BufferAddress) : Prop :=
  bufts[(g.hash t).bufferId]? = some b ∧ q.chunk = (g.hash t).addr.chunk ∧
    (g.hash t).addr.offset ≤ q.offset ∧ q.offset < (g.hash t).addr.offset + paddedSize G B g t b

theorem inRegion_eq_one {addr q : BufferAddress} {size : Nat} :
    DynTallocr.inRegion addr size q = 1 ↔
      q.chunk = addr.chunk ∧ addr.offset ≤ q.offset ∧ q.offset < addr.offset + size := by
  unfold DynTallocr.inRegion within
  split
  · next h =>
    split
    · next hin => exact iff_of_true rfl ⟨h, hin⟩
    · next hout => exact iff_of_false (by omega) fun hq => hout hq.2
  · next h => exact iff_of_false (by omega) fun hq => h hq.1

theorem inRegion_eq_zero {addr q : BufferAddress} {size : Nat}
    (h : ¬(q.chunk = addr.chunk ∧ addr.offset ≤ q.offset ∧ q.offset < addr.offset + size)) :
    DynTallocr.inRegion addr size q = 0 := by
  have hle := DynTallocr.inRegion_le_one addr size q
  have hne : DynTallocr.inRegion addr size q ≠ 1 := fun h1 => h (inRegion_eq_one.mp h1)
  omega

/-- The invariant of the planner: `pl` are the tensors that have got a place, and those that
have lost it are used before step `i` only. -/
structure Placed (G : GgmlCgraph) (B : BufferTypes) (bufts : List Nat) (i : Nat) (pl : Nat → Prop)
    (g : Planner) : Prop where
  own : ∀ t, pl t → G.Own t
  alloc : ∀ t, (g.hash t).allocated → pl t
  buffer : ∀ t, pl t → ∃ b, bufts[(g.hash t).bufferId]? = some b ∧
    (g.hash t).addr.chunk < (g.tallocs b).chunks.length
  cover_le : ∀ b q, (g.tallocs b).cover q ≤ 1
  notFree : ∀ t, (g.hash t).allocated → ∀ b q, Holds G B bufts g t b q → (g.tallocs b).cover q = 0
  apart : ∀ t u, t ≠ u → (g.hash t).allocated → (g.hash u).allocated → ∀ b q,
    Holds G B bufts g t b q → ¬Holds G B bufts g u b q
  dead : ∀ t, pl t → ¬(g.hash t).allocated → ¬G.Keeps t ∧ ∀ j, G.Uses j t → j < i
  law : ∀ t u, t ≠ u → pl t → pl u → ∀ b q, Holds G B bufts g t b q → Holds G B bufts g u b q →
    G.Shares t u ∨ G.Shares u t

section Placed

variable {i : Nat} {pl : Nat → Prop}

theorem Placed.allocatedOwn (h : Placed G B bufts i pl g) : AllocatedOwn G g := fun t ht =>
  h.own t (h.alloc t ht)

theorem Placed.mono (h : Placed G B bufts i pl g) {j : Nat} (hij : i ≤ j) : Placed G B bufts j pl g :=
  { h with
    dead := fun t hpl hnot =>
      ⟨(h.dead t hpl hnot).1, fun k hk => Nat.lt_of_lt_of_le ((h.dead t hpl hnot).2 k hk) hij⟩ }

theorem Placed.congr (h : Placed G B bufts i pl g) (htallocs : g'.tallocs = g.tallocs)
    (haddr : ∀ t, (g'.hash t).addr = (g.hash t).addr)
    (hid : ∀ t, (g'.hash t).bufferId = (g.hash t).bufferId)
    (halloc : ∀ t, (g'.hash t).allocated = (g.hash t).allocated) : Placed G B bufts i pl g' := by
  have hholds : ∀ t b q, Holds G B bufts g' t b q ↔ Holds G B bufts g t b q := by
    intro t b q
    unfold Holds paddedSize
    rw [haddr, hid, htallocs]
  refine ⟨h.own, fun t ht => h.alloc t (halloc t ▸ ht), fun t ht => ?_, fun b q => ?_,
    fun t ht b q hq => ?_, fun t u hne ht hu b q hq hq' => ?_, fun t hpl hnot => ?_,
    fun t u hne ht hu b q hq hq' => ?_⟩
  · rw [haddr, hid, htallocs]
    exact h.buffer t ht
  · rw [htallocs]
    exact h.cover_le b q
  · rw [htallocs]
    exact h.notFree t (halloc t ▸ ht) b q ((hholds t b q).mp hq)
  · exact h.apart t u hne (halloc t ▸ ht) (halloc u ▸ hu) b q ((hholds t b q).mp hq)
      ((hholds u b q).mp hq')
  · exact h.dead t hpl (halloc t ▸ hnot)
  · exact h.law t u hne ht hu b q ((hholds t b q).mp hq) ((hholds u b q).mp hq')

/-- A tensor gets a place that no allocated tensor has bytes of; the others keep theirs. -/
theorem Placed.add (h : Placed G B bufts i pl g) (hown : G.Own t) (hpl : ¬pl t) {j : Nat}
    (halign : ∀ c, (g'.tallocs c).alignment = (g.tallocs c).alignment)
    (hlen : ∀ c, (g.tallocs c).chunks.length ≤ (g'.tallocs c).chunks.length)
    (hplace : ∀ u, u ≠ t → (g'.hash u).addr = (g.hash u).addr ∧ (g'.hash u).bufferId = (g.hash u).bufferId)
    (hkept : ∀ u, u ≠ t → (g'.hash u).allocated → (g.hash u).allocated) (hnew : (g'.hash t).allocated)
    (hbuffer : ∃ b, bufts[(g'.hash t).bufferId]? = some b ∧ (g'.hash t).addr.chunk < (g'.tallocs b).chunks.length)
    (hcover : ∀ c q, (g'.tallocs c).cover q ≤ 1)
    (hfree : ∀ c q, Holds G B bufts g' t c q → (g'.tallocs c).cover q = 0)
    (hapart : ∀ u, u ≠ t → (g'.hash u).allocated → ∀ c q, Holds G B bufts g u c q →
      (g'.tallocs c).cover q = 0 ∧ ¬Holds G B bufts g' t c q)
    (hdead : ∀ u, pl u → ¬(g'.hash u).allocated → G.Shares u t ∧ ¬G.Keeps u ∧ ∀ k, G.Uses k u → k < j) :
    Placed G B bufts j (fun u => pl u ∨ u = t) g' := by
  have hne : ∀ u, pl u → u ≠ t := fun u hu heq => hpl (heq ▸ hu)
  have hholds : ∀ u, u ≠ t → ∀ c q, Holds G B bufts g' u c q ↔ Holds G B bufts g u c q := by
    intro u hut c q
    unfold Holds paddedSize
    rw [(hplace u hut).1, (hplace u hut).2, halign]
  refine ⟨fun u hu => ?_, fun u hu => ?_, fun u hu => ?_, hcover, fun u hu c q hq => ?_,
    fun u v huv hu hv c q hq hq' => ?_, fun u hu hnot => ?_, fun u v huv hu hv c q hq hq' => ?_⟩
  · rcases hu with hu | rfl
    · exact h.own u hu
    · exact hown
  · rcases eq_or_ne u t with rfl | hut
    · exact .inr rfl
    · exact .inl (h.alloc u (hkept u hut hu))
  · rcases hu with hu | rfl
    · obtain ⟨c, hc, hlt⟩ := h.buffer u hu
      rw [(hplace u (hne u hu)).1, (hplace u (hne u hu)).2]
      exact ⟨c, hc, Nat.lt_of_lt_of_le hlt (hlen c)⟩
    · exact hbuffer
  · rcases eq_or_ne u t with rfl | hut
    · exact hfree c q hq
    · exact (hapart u hut hu c q ((hholds u hut c q).mp hq)).1
  · rcases eq_or_ne u t with rfl | hut
    · exact (hapart v huv.symm hv c q ((hholds v huv.symm c q).mp hq')).2 hq
    · have hq := (hholds u hut c q).mp hq
      rcases eq_or_ne v t with rfl | hvt
      · exact (hapart u hut hu c q hq).2 hq'
      · exact h.apart u v huv (hkept u hut hu) (hkept v hvt hv) c q hq ((hholds v hvt c q).mp hq')
  · rcases hu with hu | rfl
    · exact (hdead u hu hnot).2
    · exact absurd hnew hnot
  · have hshared : ∀ u, pl u → Holds G B bufts g' u c q → Holds G B bufts g' t c q → G.Shares u t := by
      intro u hu hq hqt
      have hq := (hholds u (hne u hu) c q).mp hq
      exact (hdead u hu fun hal => (hapart u (hne u hu) hal c q hq).2 hqt).1
    rcases hu with hu | rfl
    · rcases hv with hv | rfl
      · exact h.law u v huv hu hv c q ((hholds u (hne u hu) c q).mp hq)
          ((hholds v (hne v hv) c q).mp hq')
      · exact .inl (hshared u hu hq hq')
    · rcases hv with hv | rfl
      · exact .inr (hshared v hv hq' hq)
      · exact absurd rfl huv

/-- A tensor gets bytes that were free. -/
theorem Placed.fresh (h : Placed G B bufts i pl g) (hown : G.Own t) (hpl : ¬pl t)
    (hshare : ∀ u, pl u → ¬(g.hash u).allocated → G.Shares u t) {b id : Nat} {addr : BufferAddress}
    {talloc : DynTallocr} (hb : bufts[id]? = some b)
    (halloc : DynTallocr.Allocated (g.tallocs b) (paddedSize G B g t b) addr talloc)
    (htallocs : ∀ c, g'.tallocs c = if c = b then talloc else g.tallocs c)
    (hhash : ∀ u, g'.hash u = if u = t then
      { g.hash t with allocated := true, bufferId := id, addr := addr } else g.hash u) :
    Placed G B bufts i (fun u => pl u ∨ u = t) g' := by
  have hold : ∀ u, u ≠ t → g'.hash u = g.hash u := fun u hne => by rw [hhash, if_neg hne]
  have hnew : g'.hash t = { g.hash t with allocated := true, bufferId := id, addr := addr } := by
    rw [hhash, if_pos rfl]
  have hne : ∀ u, pl u → u ≠ t := fun u hu heq => hpl (heq ▸ hu)
  have halign : ∀ c, (g'.tallocs c).alignment = (g.tallocs c).alignment := by
    intro c
    rw [htallocs]
    split
    · next hc => rw [halloc.alignment, hc]
    · rfl
  have hnewHolds : ∀ c q, Holds G B bufts g' t c q →
      c = b ∧ DynTallocr.inRegion addr (paddedSize G B g t b) q = 1 := by
    rintro c q ⟨hc, hq⟩
    unfold paddedSize at hq
    rw [hnew] at hc hq
    obtain rfl := some.inj (hc.symm.trans hb)
    rw [halign] at hq
    exact ⟨rfl, inRegion_eq_one.mpr hq⟩
  have hfree : ∀ q, talloc.cover q + DynTallocr.inRegion addr (paddedSize G B g t b) q ≤ 1 := by
    intro q
    rcases Nat.lt_or_ge q.chunk (g.tallocs b).chunks.length with hlt | hge
    · rw [halloc.cover_old q hlt]
      exact h.cover_le b q
    · exact halloc.cover_new q hge
  refine h.add hown hpl halign (fun c => ?_) (fun u hut => ?_) (fun u hut hu => ?_) ?_ ?_ (fun c q => ?_)
    (fun c q hq => ?_) (fun u hut hu c q hq => ?_) (fun u hu hnot => ?_)
  · rw [htallocs]
    split
    · next hc => exact hc ▸ halloc.length_le
    · exact Nat.le_refl _
  · rw [hold u hut]
    exact ⟨rfl, rfl⟩
  · rwa [hold u hut] at hu
  · rw [hnew]
  · rw [hnew]
    refine ⟨b, hb, ?_⟩
    rw [htallocs, if_pos rfl]
    exact halloc.chunk_lt
  · rw [htallocs]
    split
    · have := hfree q
      omega
    · exact h.cover_le c q
  · obtain ⟨rfl, hin⟩ := hnewHolds c q hq
    have := hfree q
    rw [htallocs, if_pos rfl]
    omega
  · rw [hold u hut] at hu
    have hzero := h.notFree u hu c q hq
    rw [htallocs]
    split
    · next hcb =>
      -- the bytes of the others are neither free nor taken now
      subst hcb
      obtain ⟨b', hb', hlt⟩ := h.buffer u (h.alloc u hu)
      obtain rfl := some.inj (hb'.symm.trans hq.1)
      have hcover := halloc.cover_old q (hq.2.1 ▸ hlt)
      refine ⟨by omega, fun hqt => ?_⟩
      have := (hnewHolds b' q hqt).2
      omega
    · next hcb => exact ⟨hzero, fun hqt => hcb (hnewHolds c q hqt).1⟩
  · rw [hold u (hne u hu)] at hnot
    exact ⟨hshare u hu hnot, h.dead u hu hnot⟩

/-- A tensor takes over the front of the region of its parent; the rest is freed. -/
theorem Placed.reuse (h : Placed G B bufts i pl g) (hown : G.Own t) (hpl : ¬pl t)
    (hshare : ∀ u, pl u → ¬(g.hash u).allocated → G.Shares u t) {p b j : Nat} (hij : i ≤ j)
    (halloc : (g.hash p).allocated) (hps : G.Shares p t)
    (hdead : ¬G.Keeps p ∧ ∀ k, G.Uses k p → k < j) (hb : bufts[(g.hash p).bufferId]? = some b)
    (hle : paddedSize G B g t b ≤ paddedSize G B g p b)
    (halign : ∀ c, (g'.tallocs c).alignment = (g.tallocs c).alignment)
    (hlen : ∀ c, (g'.tallocs c).chunks.length = (g.tallocs c).chunks.length)
    (hcover : ∀ c q, (g'.tallocs c).cover q = (g.tallocs c).cover q + if c = b then
      DynTallocr.inRegion ⟨(g.hash p).addr.chunk, (g.hash p).addr.offset + paddedSize G B g t b⟩
        (paddedSize G B g p b - paddedSize G B g t b) q else 0)
    (hhash : ∀ u, g'.hash u = if u = t then
      { g.hash t with allocated := true, bufferId := (g.hash p).bufferId, addr := (g.hash p).addr }
      else if u = p then { g.hash p with allocated := false } else g.hash u) :
    Placed G B bufts j (fun u => pl u ∨ u = t) g' := by
  have hplp : pl p := h.alloc p halloc
  have hne : ∀ u, pl u → u ≠ t := fun u hu heq => hpl (heq ▸ hu)
  have hnew : g'.hash t = { g.hash t with
      allocated := true
      bufferId := (g.hash p).bufferId
      addr := (g.hash p).addr } := by
    rw [hhash, if_pos rfl]
  -- the new region is the front of the region of the parent
  have hfront : ∀ c q, Holds G B bufts g' t c q → c = b ∧ Holds G B bufts g p b q ∧
      q.offset < (g.hash p).addr.offset + paddedSize G B g t b := by
    rintro c q ⟨hc, hchunk, hlow, hhigh⟩
    unfold paddedSize at hhigh
    rw [hnew] at hc hchunk hlow hhigh
    rw [halign] at hhigh
    obtain rfl := some.inj (hc.symm.trans hb)
    exact ⟨rfl, ⟨hb, hchunk, hlow, Nat.lt_of_lt_of_le hhigh (Nat.add_le_add_left hle _)⟩, hhigh⟩
  have htail : ∀ q, DynTallocr.inRegion
      ⟨(g.hash p).addr.chunk, (g.hash p).addr.offset + paddedSize G B g t b⟩
      (paddedSize G B g p b - paddedSize G B g t b) q = 1 →
      Holds G B bufts g p b q ∧ (g.hash p).addr.offset + paddedSize G B g t b ≤ q.offset := by
    intro q hq
    obtain ⟨hchunk, hlow, hhigh⟩ := inRegion_eq_one.mp hq
    dsimp only at hchunk hlow hhigh
    exact ⟨⟨hb, hchunk, by omega, by omega⟩, hlow⟩
  have hallocated : ∀ u, u ≠ t → (g'.hash u).allocated → u ≠ p ∧ (g.hash u).allocated := by
    intro u hut hu
    rw [hhash, if_neg hut] at hu
    rcases eq_or_ne u p with rfl | hup
    · rw [if_pos rfl] at hu
      cases hu
    · rw [if_neg hup] at hu
      exact ⟨hup, hu⟩
  have hle1 := DynTallocr.inRegion_le_one
    ⟨(g.hash p).addr.chunk, (g.hash p).addr.offset + paddedSize G B g t b⟩
    (paddedSize G B g p b - paddedSize G B g t b)
  -- bytes that were not free and are not in the tail
  have hbusy : ∀ c q, (g.tallocs c).cover q = 0 →
      ¬(c = b ∧ Holds G B bufts g p b q ∧ (g.hash p).addr.offset + paddedSize G B g t b ≤ q.offset) →
      (g'.tallocs c).cover q = 0 := by
    intro c q hzero hnot
    rw [hcover, hzero, Nat.zero_add]
    split
    · next hcb =>
      by_contra hone
      have := hle1 q
      exact hnot ⟨hcb, htail q (by omega)⟩
    · rfl
  refine h.add hown hpl halign (fun c => Nat.le_of_eq (hlen c).symm) (fun u hut => ?_)
    (fun u hut hu => (hallocated u hut hu).2) ?_ ?_ (fun c q => ?_) (fun c q hq => ?_)
    (fun u hut hu c q hq => ?_) (fun u hu hnot => ?_)
  · rw [hhash, if_neg hut]
    split
    · next hup => rw [hup]; exact ⟨rfl, rfl⟩
    · exact ⟨rfl, rfl⟩
  · rw [hnew]
  · obtain ⟨c, hc, hlt⟩ := h.buffer p hplp
    rw [hnew]
    exact ⟨c, hc, (hlen c).symm ▸ hlt⟩
  · have hold := h.cover_le c q
    rw [hcover]
    split
    · next hcb =>
      subst hcb
      have := hle1 q
      rcases Nat.eq_zero_or_pos (DynTallocr.inRegion
        ⟨(g.hash p).addr.chunk, (g.hash p).addr.offset + paddedSize G B g t c⟩
        (paddedSize G B g p c - paddedSize G B g t c) q) with hz | hpos
      · omega
      · have hzero := h.notFree p halloc c q (htail q (by omega)).1
        omega
    · exact hold
  · obtain ⟨rfl, hq, hlt⟩ := hfront c q hq
    exact hbusy c q (h.notFree p halloc c q hq) fun hnot => by omega
  · obtain ⟨hup, hu⟩ := hallocated u hut hu
    have hnot : c = b → ¬Holds G B bufts g p b q := by
      rintro rfl hqp
      exact h.apart u p hup hu halloc c q hq hqp
    exact ⟨hbusy c q (h.notFree u hu c q hq) fun hin => hnot hin.1 hin.2.1, fun hqt =>
      hnot (hfront c q hqt).1 (hfront c q hqt).2.1⟩
  · rcases eq_or_ne u p with rfl | hup
    · exact ⟨hps, hdead⟩
    · rw [hhash, if_neg (hne u hu), if_neg hup] at hnot
      exact ⟨hshare u hu hnot, (h.mono hij).dead u hu hnot⟩

/-- The bytes of a tensor that has no uses left are freed. -/
theorem Placed.free (h : Placed G B bufts i pl g) (halloc : (g.hash t).allocated)
    (hdead : ¬(G.tensor t).output → ¬G.Keeps t ∧ ∀ k, G.Uses k t → k < i)
    (hfree : g.freeNode G B bufts t = some g') : Placed G B bufts i pl g' := by
  unfold freeNode at hfree
  split at hfree
  · obtain rfl := some.inj hfree
    exact h
  · next hout =>
    obtain ⟨b, hb, hfree⟩ := bind_eq_some_iff.mp hfree
    obtain ⟨talloc, hfreed, hfree⟩ := bind_eq_some_iff.mp hfree
    obtain rfl := some.inj hfree
    have hfreed := DynTallocr.freeBytes_freed hfreed
    set g' := (g.setTalloc b talloc).modify t fun hn => { hn with allocated := false } with hg'
    have htallocs : ∀ c, g'.tallocs c = if c = b then talloc else g.tallocs c := fun c =>
      setTalloc_tallocs b c talloc
    have hhash : ∀ u, g'.hash u = if u = t then { g.hash t with allocated := false } else g.hash u := by
      intro u
      rw [hg', modify_hash, setTalloc_hash]
    have hplace : ∀ u, (g'.hash u).addr = (g.hash u).addr ∧ (g'.hash u).bufferId = (g.hash u).bufferId := by
      intro u
      rw [hhash]
      split
      · next hut => rw [hut]; exact ⟨rfl, rfl⟩
      · exact ⟨rfl, rfl⟩
    have hholds : ∀ u c q, Holds G B bufts g' u c q ↔ Holds G B bufts g u c q := by
      intro u c q
      unfold Holds paddedSize
      rw [(hplace u).1, (hplace u).2, htallocs]
      split
      · next hcb => rw [hfreed.alignment, hcb]
      · rfl
    have hcover : ∀ c q, (g'.tallocs c).cover q = (g.tallocs c).cover q + if c = b then
        DynTallocr.inRegion (g.hash t).addr (paddedSize G B g t b) q else 0 := by
      intro c q
      rw [htallocs]
      split
      · next hcb => rw [hfreed.cover, hcb]; rfl
      · rw [Nat.add_zero]
    have hregion : ∀ q, ¬Holds G B bufts g t b q →
        DynTallocr.inRegion (g.hash t).addr (paddedSize G B g t b) q = 0 := fun q hq =>
      inRegion_eq_zero fun hin => hq ⟨hb, hin⟩
    have hallocated : ∀ u, (g'.hash u).allocated → u ≠ t ∧ (g.hash u).allocated := by
      intro u hu
      rw [hhash] at hu
      split at hu
      · cases hu
      · next hut => exact ⟨hut, hu⟩
    refine ⟨h.own, fun u hu => h.alloc u (hallocated u hu).2, fun u hu => ?_, fun c q => ?_,
      fun u hu c q hq => ?_, fun u v huv hu hv c q hq hq' => ?_, fun u hu hnot => ?_,
      fun u v huv hu hv c q hq hq' => ?_⟩
    · obtain ⟨c, hc, hlt⟩ := h.buffer u hu
      rw [(hplace u).1, (hplace u).2]
      refine ⟨c, hc, ?_⟩
      rw [htallocs]
      split
      · next hcb => rwa [hfreed.length_eq, ← hcb]
      · exact hlt
    · rw [hcover]
      have hle1 := h.cover_le c q
      split
      · next hcb =>
        subst hcb
        rcases Classical.em (Holds G B bufts g t c q) with hq | hq
        · rw [h.notFree t halloc c q hq, Nat.zero_add]
          exact DynTallocr.inRegion_le_one ..
        · rw [hregion q hq]
          exact hle1
      · exact hle1
    · obtain ⟨hut, hold⟩ := hallocated u hu
      have hqu := (hholds u c q).mp hq
      rw [hcover, h.notFree u hold c q hqu, Nat.zero_add]
      split
      · next hcb =>
        subst hcb
        exact hregion q fun hqt => h.apart u t hut hold halloc c q hqu hqt
      · rfl
    · exact h.apart u v huv (hallocated u hu).2 (hallocated v hv).2 c q ((hholds u c q).mp hq)
        ((hholds v c q).mp hq')
    · rcases eq_or_ne u t with rfl | hut
      · exact hdead hout
      · rw [hhash, if_neg hut] at hnot
        exact h.dead u hu hnot
    · exact h.law u v huv hu hv c q ((hholds u c q).mp hq) ((hholds v c q).mp hq')

end Placed

end Planner

end LlamaCpp
