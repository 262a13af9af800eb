import LlamaCpp.Alloc.NoAlias
import LlamaCpp.Alloc.Ownership

/-!
# A graph on the plan of another one

`ggml_gallocr_alloc_graph` gives a graph the plan of an earlier one when the numbers of nodes and
leafs and the sizes by position agree.  The plan encodes the lifetimes of the earlier graph, so
more has to agree (`Stands`, `Replaces`): a tensor of the new graph takes over the place that
the tensor at its position had.
-/

namespace LlamaCpp

open List Option

namespace VbufferTable

variable {s s' : VbufferTable} {bufts : List Nat} {tallocs : Nat → DynTallocr} {noAlloc : Bool}
  {outcome : Nat → AllocOutcome} {i j : Nat}

/-- An iteration writes its own entry. -/
theorem reserveEntry_entry_of_ne (hne : j ≠ i) :
    (s.reserveEntry bufts tallocs noAlloc outcome i).2.entry j = s.entry j := by
  have hshare : (s.share bufts i).entry j = s.entry j := by
    unfold share
    split
    · rfl
    · exact Function.update_of_ne hne _ _
  unfold reserveEntry
  dsimp only
  split
  · split
    · change Function.update ((s.share bufts i).free _).entry i none j = s.entry j
      rw [Function.update_of_ne hne, free_entry, hshare]
    · dsimp only
      rw [alloc_entry_of_ne hne, free_entry, hshare]
  · exact hshare

/-- After a successful iteration there is a vbuffer. -/
theorem reserveEntry_isSome (h : (s.reserveEntry bufts tallocs false outcome i).1 = true) :
    ((s.reserveEntry bufts tallocs false outcome i).2.entry i).isSome := by
  unfold reserveEntry at h ⊢
  dsimp only at h ⊢
  split at h
  · next hneeds =>
    rw [if_pos hneeds]
    exact h
  · next hneeds =>
    rw [if_neg hneeds]
    unfold VbufferTable.needsRealloc at hneeds
    split at hneeds
    · exact absurd rfl hneeds
    · next hsome =>
      rw [hsome]
      rfl

theorem reserveEntries_isSome {is : List Nat} (hnodup : is.Nodup)
    (h : s.reserveEntries bufts tallocs false outcome is = (true, s')) :
    (∀ i ∈ is, (s'.entry i).isSome) ∧ ∀ j, j ∉ is → s'.entry j = s.entry j := by
  induction is generalizing s with
  | nil =>
    obtain ⟨-, rfl⟩ := Prod.mk.inj h
    exact ⟨fun i hi => absurd hi not_mem_nil, fun _ _ => rfl⟩
  | cons k is ih =>
    rw [nodup_cons] at hnodup
    unfold reserveEntries at h
    split at h
    · cases h
    · next s₁ hone =>
      obtain ⟨hdone, hkeep⟩ := ih hnodup.2 h
      refine ⟨fun i hi => ?_, fun j hj => ?_⟩
      · rcases mem_cons.mp hi with rfl | hi
        · have hsome : ((s.reserveEntry bufts tallocs false outcome i).2.entry i).isSome :=
            reserveEntry_isSome (by rw [hone])
          rw [hone] at hsome
          rw [hkeep i hnodup.1]
          exact hsome
        · exact hdone i hi
      · rw [mem_cons, not_or] at hj
        rw [hkeep j hj.2]
        have hother : (s.reserveEntry bufts tallocs false outcome k).2.entry j = s.entry j :=
          reserveEntry_entry_of_ne hj.1
        rwa [hone] at hother

end VbufferTable

/-! ## Positions -/

variable {G : GgmlCgraph}

namespace GgmlCgraph

variable (G₁ G₂ : GgmlCgraph)

/-- Tensor `y` of the second graph stands where `x` stood in the first one. -/
def Stands (x y : Nat) : Prop :=
  (∃ i : Nat, G₁.leafs[i]? = some x ∧ G₂.leafs[i]? = some y) ∨
    ∃ i : Nat, G₁.nodes[i]? = some x ∧ G₂.nodes[i]? = some y

/-- What the second graph needs to run on the plan of the first one, besides what is checked. -/
structure Replaces (B : BufferTypes) : Prop where
  own : ∀ x y, Stands G₁ G₂ x y → G₂.Own y → G₁.Own x
  /-- The sizes of leafs are not checked. -/
  leaf_le : ∀ (i : Nat) (x y : Nat), G₁.leafs[i]? = some x → G₂.leafs[i]? = some y → G₂.Own y →
    ∀ b, B.allocSize b (G₂.tensor y) ≤ B.allocSize b (G₁.tensor x)
  /-- Tensors that must not share bytes replace tensors that did not. -/
  apart : ∀ x y x' y', Stands G₁ G₂ x y → Stands G₁ G₂ x' y' → y ≠ y' → G₂.Own y → G₂.Own y' →
    ¬G₂.Shares y y' → ¬G₂.Shares y' y → x ≠ x' ∧ ¬G₁.Shares x x' ∧ ¬G₁.Shares x' x

variable {G₁ G₂}

theorem Stands.eq {x y : Nat} (h : G.Stands G x y) : x = y := by
  rcases h with ⟨i, hx, hy⟩ | ⟨i, hx, hy⟩
  · exact some.inj (hx.symm.trans hy)
  · exact some.inj (hx.symm.trans hy)

/-- A graph can run on its own plan. -/
theorem Replaces.refl {B : BufferTypes} : G.Replaces G B where
  own := by
    intro x y h hown
    rwa [h.eq]
  leaf_le := by
    intro i x y hx hy hown b
    obtain rfl := some.inj (hx.symm.trans hy)
    exact Nat.le_refl _
  apart := by
    intro x y x' y' h h' hne _ _ hxy hyx
    rw [h.eq, h'.eq]
    exact ⟨hne, hxy, hyx⟩

end GgmlCgraph

namespace Gallocr

open Planner

variable {G₁ G₂ : GgmlCgraph} {B : BufferTypes} {bufts : List Nat} {g : Gallocr} {planner : Planner}
  {placed : Placement} {t last : Nat}

/-! ## What `ggml_gallocr_init_tensor` leaves alone -/

/-- A tensor that needs no place, or has one. -/
theorem initTensor_skip {al : TensorAlloc} (h : G.Own t → (placed t).isSome) :
    g.initTensor G placed t al = some placed := by
  unfold initTensor
  rw [if_pos]
  simp only [GgmlTensor.isView, Bool.or_eq_true]
  rcases Classical.em (G.Own t) with hown | hown
  · exact .inr (h hown)
  · unfold GgmlCgraph.Own at hown
    simp only [isSome_iff_ne_none, ne_eq]
    tauto

theorem initTensor_place {al : TensorAlloc} (hown : G.Own t) (hnone : placed t = none)
    {p : Nat × BufferAddress} (hp : al.place = some p) (hbuf : (g.buffers.entry p.1).isSome) :
    g.initTensor G placed t al = some (Function.update placed t (some p)) := by
  obtain ⟨v, hv⟩ := isSome_iff_exists.mp hbuf
  unfold initTensor
  rw [GgmlTensor.isView, hown.1, hown.2.1, hown.2.2, hnone, if_neg (by decide), hp, bind_eq_bind, bind_some, hv]
  rfl

theorem tensorAlloc_own (hown : G₁.Own t) : tensorAlloc G₁ B bufts planner t =
    { place := some ((planner.hash t).bufferId, (planner.hash t).addr)
      sizeMax := B.allocSize (bufts.getD (planner.hash t).bufferId 0) (G₁.tensor t) } := by
  unfold tensorAlloc
  rw [GgmlTensor.isView, hown.1, hown.2.1]
  rfl

/-! ## The loops -/

/-- The tensors that have a place have that of a tensor at their position that is no smaller. -/
structure Standing (G₁ G₂ : GgmlCgraph) (B : BufferTypes) (bufts : List Nat) (planner : Planner)
    (done : Nat → Prop) (placed : Placement) : Prop where
  own : ∀ y p, placed y = some p → G₂.Own y
  place : ∀ y p, placed y = some p → ∃ x, G₁.Stands G₂ x y ∧
    p = ((planner.hash x).bufferId, (planner.hash x).addr) ∧
    ∀ b, bufts[p.1]? = some b → B.allocSize b (G₂.tensor y) ≤ B.allocSize b (G₁.tensor x)
  complete : ∀ y, done y → G₂.Own y → (placed y).isSome

/-- A tensor gets the place of the one at its position, unless it has one. -/
theorem Standing.init {done : Nat → Prop} {x y : Nat} {g : Gallocr}
    (h : Standing G₁ G₂ B bufts planner done placed) (hstands : G₁.Stands G₂ x y)
    (hfrom : G₂.Own y → G₁.Own x) (hsize : G₂.Own y → ∀ b, bufts[(planner.hash x).bufferId]? = some b →
      B.allocSize b (G₂.tensor y) ≤ B.allocSize b (G₁.tensor x))
    (hbuf : G₁.Own x → (g.buffers.entry (planner.hash x).bufferId).isSome) :
    ∃ placed', g.initTensor G₂ placed y (tensorAlloc G₁ B bufts planner x) = some placed' ∧
      Standing G₁ G₂ B bufts planner (fun t => done t ∨ t = y) placed' := by
  rcases Classical.em (G₂.Own y → (placed y).isSome) with hskip | hskip
  · refine ⟨placed, initTensor_skip hskip, h.own, h.place, fun t ht hown => ?_⟩
    rcases ht with ht | rfl
    · exact h.complete t ht hown
    · exact hskip hown
  · rw [Classical.not_imp] at hskip
    obtain ⟨hy, hnone⟩ := hskip
    have hx := hfrom hy
    have hnone : placed y = none := by simpa using hnone
    have hplace : (tensorAlloc G₁ B bufts planner x).place =
        some ((planner.hash x).bufferId, (planner.hash x).addr) := by
      rw [tensorAlloc_own hx]
    refine ⟨_, initTensor_place hy hnone hplace (hbuf hx), fun t p ht => ?_, fun t p ht => ?_, fun t ht hown => ?_⟩
    · rcases eq_or_ne t y with rfl | hne
      · exact hy
      · rw [Function.update_of_ne hne] at ht
        exact h.own t p ht
    · rcases eq_or_ne t y with rfl | hne
      · rw [Function.update_self] at ht
        obtain rfl := some.inj ht
        exact ⟨x, hstands, rfl, hsize hy⟩
      · rw [Function.update_of_ne hne] at ht
        exact h.place t p ht
    · rcases eq_or_ne t y with rfl | hne
      · rw [Function.update_self]
        rfl
      · rw [Function.update_of_ne hne]
        exact h.complete t (ht.resolve_right hne) hown

/-- The parents have their places when a node is initialised. -/
theorem initNode_eq {al : NodeAlloc} (h : ∀ p ∈ (G₂.tensor t).parents, G₂.Own p → (placed p).isSome) :
    g.initNode G₂ placed t al = g.initTensor G₂ placed t al.dst := by
  refine Loops.foldlM_bind_fixed fun src hsrc => ?_
  cases hp : src.1 with
  | none => rfl
  | some p =>
    refine initTensor_skip (h p (reduceOption_mem_iff.mpr ?_))
    obtain ⟨hlt, hget⟩ := mem_zipIdx' hsrc
    rw [← hp, hget]
    exact getElem_mem hlt

/-- The check passes: as many nodes and leafs as planned, and every own node has the size that was
planned at its position. -/
theorem needsRealloc_eq_false (h : g.needsRealloc G₂ B bufts = false) :
    g.nodeAllocs.length = G₂.nodes.length ∧ g.leafAllocs.length = G₂.leafs.length ∧
      ∀ (i y : Nat) (al : NodeAlloc), G₂.nodes[i]? = some y → g.nodeAllocs[i]? = some al → G₂.Own y →
        ∃ id addr, al.dst.place = some (id, addr) ∧ al.dst.sizeMax = B.allocSize (bufts.getD id 0) (G₂.tensor y) := by
  unfold Gallocr.needsRealloc at h
  split at h
  · cases h
  · next hnodes =>
    split at h
    · cases h
    · next hleafs =>
      refine ⟨not_not.mp hnodes, not_not.mp hleafs, fun i y al hy hal hown => ?_⟩
      have hmem : (y, al) ∈ G₂.nodes.zip g.nodeAllocs :=
        mem_of_getElem? (getElem?_zip_eq_some.mpr ⟨hy, hal⟩)
      have hgood := (List.any_eq_false.mp h) _ hmem
      simp only [Bool.or_eq_true, not_or, Bool.not_eq_true', Bool.not_eq_false] at hgood
      have hgood := hgood.1
      unfold nodeNeedsRealloc at hgood
      rw [GgmlTensor.isView, hown.1, hown.2.1] at hgood
      cases hplace : al.dst.place with
      | none => rw [hplace] at hgood; cases hgood
      | some p =>
        rw [hplace] at hgood
        exact ⟨p.1, p.2, rfl, of_decide_eq_true hgood⟩

/-- Byte `q` of the chunks for buffer type `b` is a byte of tensor `t`. -/
def Covers (G : GgmlCgraph) (B : BufferTypes) (bufts : List Nat) (placed : Placement) (t b : Nat)
    (q : BufferAddress) : Prop :=
  ∃ id addr, placed t = some (id, addr) ∧ bufts[id]? = some b ∧ q.chunk = addr.chunk ∧
    addr.offset ≤ q.offset ∧ q.offset < addr.offset + B.allocSize b (G.tensor t)

/-- `Planner.NoAlias` for the addresses that were given to the tensors. -/
def NoAliasing (G : GgmlCgraph) (B : BufferTypes) (bufts : List Nat) (placed : Placement) : Prop :=
  ∀ x y, x ≠ y → G.Own x → G.Own y → ∀ b q, Covers G B bufts placed x b q →
    Covers G B bufts placed y b q → G.Shares x y ∨ G.Shares y x

/-- A reserve that succeeds. -/
theorem reserveNImpl_ok {nodeIds leafIds : Nat → Int} {outcome : Nat → AllocOutcome} {g₁ : Gallocr}
    (h : g.reserveNImpl G₁ B bufts nodeIds leafIds false outcome = some (true, g₁)) :
    ∃ planner, g.plan G₁ B bufts nodeIds leafIds = some planner ∧
      g₁.nodeAllocs = G₁.nodes.map (nodeAlloc G₁ B bufts planner) ∧
      g₁.leafAllocs = G₁.leafs.map (tensorAlloc G₁ B bufts planner) ∧
      ∀ i < bufts.length, (g₁.buffers.entry i).isSome := by
  obtain ⟨planner, hplan, h⟩ := bind_eq_some_iff.mp h
  obtain ⟨hok, rfl⟩ := Prod.mk.inj (some.inj h)
  refine ⟨planner, hplan, if_pos hok, if_pos hok, fun i hi => ?_⟩
  exact (VbufferTable.reserveEntries_isSome nodup_range (Prod.ext hok rfl)).1 i
    (mem_range.mpr hi)

/-- Initialising the second graph from the plan of the first one. -/
theorem initGraph_standing {nodeIds leafIds : Nat → Int} {g₀ : Gallocr} (hG₁ : G₁.Ordered)
    (hF₁ : G₁.Fine) (hG₂ : G₂.Ordered) (hrep : G₁.Replaces G₂ B)
    (hplan : g₀.plan G₁ B bufts nodeIds leafIds = some planner)
    (hnodes : g.nodeAllocs = G₁.nodes.map (nodeAlloc G₁ B bufts planner))
    (hleafs : g.leafAllocs = G₁.leafs.map (tensorAlloc G₁ B bufts planner))
    (hbufs : ∀ i < bufts.length, (g.buffers.entry i).isSome)
    (hkeep : g.needsRealloc G₂ B bufts = false) :
    ∃ placed, g.initGraph G₂ = some placed ∧
      Standing G₁ G₂ B bufts planner (fun t => t ∈ G₂.leafs ∨ t ∈ G₂.nodes) placed := by
  obtain ⟨pl, hplaced, hall⟩ := allocGraphImpl_placed hG₁ hF₁ (fun _ => rfl) hplan
  obtain ⟨hlen, hlen', hcheck⟩ := needsRealloc_eq_false hkeep
  -- the tensors of the first graph have their places in a buffer
  have hbuf : ∀ x, x ∈ G₁.leafs ∨ x ∈ G₁.nodes → G₁.Own x → (g.buffers.entry (planner.hash x).bufferId).isSome := by
    intro x hx hown
    obtain ⟨b, hb, -⟩ := hplaced.buffer x (hall x hown hx)
    exact hbufs _ (List.getElem?_eq_some_iff.mp hb).1
  have hleafLoop := Loops.foldlM_ok (fun placed leaf => g.initTensor G₂ placed leaf.1 leaf.2)
    (G₂.leafs.zip g.leafAllocs) (I := fun i placed =>
      Standing G₁ G₂ B bufts planner (fun t => t ∈ G₂.leafs.take i) placed)
    (s := fun _ => none) ⟨nofun, nofun, fun t ht => absurd ht (by simp)⟩ (fun i leaf hleaf s hs => ?_)
  · obtain ⟨placed, hrun, hstand⟩ := hleafLoop
    have hleft : ∀ t, t ∈ G₂.leafs.take (G₂.leafs.zip g.leafAllocs).length ↔ t ∈ G₂.leafs := by
      intro t
      rw [length_zip, hlen', Nat.min_self, take_length]
    have hnodeLoop := Loops.foldlM_ok (fun placed node => g.initNode G₂ placed node.1 node.2)
      (G₂.nodes.zip g.nodeAllocs) (I := fun i placed =>
        Standing G₁ G₂ B bufts planner (fun t => t ∈ G₂.leafs ∨ t ∈ G₂.nodes.take i) placed)
      (s := placed) ⟨hstand.own, hstand.place, fun t ht => hstand.complete t ((hleft t).mpr
        (ht.resolve_right (by simp)))⟩ (fun i node hnode s hs => ?_)
    · obtain ⟨placed', hrun', hstand'⟩ := hnodeLoop
      rw [length_zip, hlen, Nat.min_self, take_length] at hstand'
      refine ⟨placed', ?_, hstand'⟩
      unfold initGraph
      rw [bind_eq_bind, hrun, bind_some]
      exact hrun'
    · obtain ⟨hy, hal⟩ := getElem?_zip_eq_some.mp hnode
      rw [hnodes, getElem?_map, map_eq_some_iff] at hal
      obtain ⟨x, hx, hal⟩ := hal
      have hstands : G₁.Stands G₂ x node.1 := .inr ⟨i, hx, hy⟩
      have hparents : ∀ p ∈ (G₂.tensor node.1).parents, G₂.Own p → (s p).isSome := by
        intro p hp hown
        refine hs.complete p ?_ hown
        rcases hG₂.before i node.1 p hy (.inl hp) with hleaf | ⟨j, hj, hget⟩
        · exact .inl hleaf
        · exact .inr (mem_of_getElem? (i := j) ((getElem?_take_of_lt hj).trans hget))
      have hsize : G₂.Own node.1 → ∀ b, bufts[(planner.hash x).bufferId]? = some b →
          B.allocSize b (G₂.tensor node.1) ≤ B.allocSize b (G₁.tensor x) := by
        intro hown b hb
        have hget : g.nodeAllocs[i]? = some node.2 := by
          rw [hnodes, getElem?_map, hx, ← hal]
          rfl
        obtain ⟨id, addr, hplace, hsize⟩ := hcheck i node.1 node.2 hy hget hown
        rw [← hal] at hplace hsize
        change (tensorAlloc G₁ B bufts planner x).place = _ at hplace
        change (tensorAlloc G₁ B bufts planner x).sizeMax = _ at hsize
        rw [tensorAlloc_own (hrep.own x node.1 hstands hown)] at hplace hsize
        obtain ⟨rfl, -⟩ := Prod.mk.inj (some.inj hplace)
        rw [getD_eq_getElem?_getD, hb, getD_some] at hsize
        exact Nat.le_of_eq hsize.symm
      obtain ⟨s', hrun', hs'⟩ := hs.init (g := g) hstands (hrep.own x node.1 hstands) hsize
        (hbuf x (.inr (mem_of_getElem? hx)))
      refine ⟨s', ?_, hs'.own, hs'.place, fun t ht hown => hs'.complete t ?_ hown⟩
      · rw [initNode_eq hparents, ← hal]
        exact hrun'
      · rw [take_add_one, hy, List.mem_append] at ht
        rcases ht with ht | ht | ht
        · exact .inl (.inl ht)
        · exact .inl (.inr ht)
        · exact .inr (by simpa using ht)
  · obtain ⟨hy, hal⟩ := getElem?_zip_eq_some.mp hleaf
    rw [hleafs, getElem?_map, map_eq_some_iff] at hal
    obtain ⟨x, hx, hal⟩ := hal
    have hstands : G₁.Stands G₂ x leaf.1 := .inl ⟨i, hx, hy⟩
    obtain ⟨s', hrun, hs'⟩ := hs.init (g := g) hstands (hrep.own x leaf.1 hstands)
      (fun hown b _ => hrep.leaf_le i x leaf.1 hx hy hown b) (hbuf x (.inl (mem_of_getElem? hx)))
    rw [hal] at hrun
    refine ⟨s', hrun, hs'.own, hs'.place, fun t ht hown => hs'.complete t ?_ hown⟩
    rw [take_add_one, hy, List.mem_append] at ht
    rcases ht with ht | ht
    · exact .inl ht
    · exact .inr (by simpa using ht)

/-- A graph that passes the check and replaces the planned graph gets addresses from the plan, and
its live tensors do not alias. -/
theorem allocGraph_noAliasing {nodeIds leafIds : Nat → Int} {outcome outcome' : Nat → AllocOutcome}
    {g₁ : Gallocr} (hG₁ : G₁.Ordered) (hF₁ : G₁.Fine) (hG₂ : G₂.Ordered) (hrep : G₁.Replaces G₂ B)
    (hreserve : g.reserveNImpl G₁ B bufts nodeIds leafIds false outcome = some (true, g₁))
    (hkeep : g₁.needsRealloc G₂ B bufts = false) :
    ∃ placed, g₁.allocGraph G₂ B bufts outcome' = some (some placed, g₁) ∧
      (∀ t, G₂.Own t → t ∈ G₂.leafs ∨ t ∈ G₂.nodes → (placed t).isSome) ∧
      NoAliasing G₂ B bufts placed := by
  obtain ⟨planner, hplan, hnodes, hleafs, hbufs⟩ := reserveNImpl_ok hreserve
  obtain ⟨placed, hinit, hstand⟩ := initGraph_standing hG₁ hF₁ hG₂ hrep hplan hnodes hleafs hbufs hkeep
  obtain ⟨pl, hplaced, hall⟩ := allocGraphImpl_placed hG₁ hF₁ (fun _ => rfl) hplan
  refine ⟨placed, ?_, fun t hown ht => hstand.complete t ht hown, ?_⟩
  · unfold allocGraph
    rw [hkeep, if_neg Bool.false_ne_true, hinit]
    rfl
  · -- a byte of a tensor belongs to the one that stood at its position
    have hold : ∀ y b q, Covers G₂ B bufts placed y b q →
        ∃ x, G₁.Stands G₂ x y ∧ pl x ∧ Holds G₁ B bufts planner x b q := by
      rintro y b q ⟨id, addr, hy, hb, hq⟩
      obtain ⟨x, hstands, hp, hsize⟩ := hstand.place y _ hy
      obtain ⟨rfl, rfl⟩ := Prod.mk.inj hp
      have hle := hsize b hb
      have hmem : x ∈ G₁.leafs ∨ x ∈ G₁.nodes := by
        rcases hstands with ⟨i, hx, -⟩ | ⟨i, hx, -⟩
        · exact .inl (mem_of_getElem? hx)
        · exact .inr (mem_of_getElem? hx)
      refine ⟨x, hstands, hall x (hrep.own x y hstands (hstand.own y _ hy)) hmem, ?_⟩
      exact Occupies.holds ⟨hb, hq.1, hq.2.1,
        Nat.lt_of_lt_of_le hq.2.2 (Nat.add_le_add_left hle _)⟩
    intro y y' hne hown hown' b q hq hq'
    by_contra hnot
    rw [not_or] at hnot
    obtain ⟨x, hstands, hpl, hx⟩ := hold y b q hq
    obtain ⟨x', hstands', hpl', hx'⟩ := hold y' b q hq'
    obtain ⟨hxne, hxx', hx'x⟩ := hrep.apart x y x' y' hstands hstands' hne hown hown' hnot.1 hnot.2
    exact (hplaced.law x x' hxne hpl hpl' b q hx hx').elim hxx' hx'x

/-! ### The same sizes, other edges -/

/-- Every node is computed from the one before it, and the last one from `last` as well. -/
def chainGraph (last : Nat) : GgmlCgraph where
  tensor
    | 0 => { op := .none, layout := ⟨0, [4], [4]⟩ }
    | 1 => { op := .other 0, layout := ⟨0, [4], [4]⟩, src := [some 0] }
    | 2 => { op := .other 0, layout := ⟨0, [4], [4]⟩, src := [some 1] }
    | 3 => { op := .other 0, layout := ⟨0, [4], [4]⟩, src := [some 2] }
    | 4 => { op := .other 1, layout := ⟨0, [4], [4]⟩, src := [some 3, some last] }
    | _ => { op := .none, layout := ⟨0, [], []⟩ }
  nodes := [1, 2, 3, 4]
  leafs := [0]

theorem chainGraph_viewSrc (t : Nat) : ((chainGraph last).tensor t).viewSrc = none := by
  rcases t with _ | _ | _ | _ | _ | t
  all_goals rfl

theorem chainGraph_ordered (h : last = 1 ∨ last = 2) : (chainGraph last).Ordered where
  nodup := show [1, 2, 3, 4].Nodup by decide
  leaf_notMem := by
    intro t ht
    obtain rfl := mem_singleton.mp ht
    exact show 0 ∉ [1, 2, 3, 4] by decide
  before := by
    intro i node t hi ht
    rcases i with _ | _ | _ | _ | i
    · obtain rfl := some.inj hi
      exact .inl (by simpa [chainGraph, GgmlTensor.parents, List.reduceOption] using ht)
    · obtain rfl := some.inj hi
      obtain rfl : t = 1 := by simpa [chainGraph, GgmlTensor.parents, List.reduceOption] using ht
      exact .inr ⟨0, by decide, rfl⟩
    · obtain rfl := some.inj hi
      obtain rfl : t = 2 := by simpa [chainGraph, GgmlTensor.parents, List.reduceOption] using ht
      exact .inr ⟨1, by decide, rfl⟩
    · obtain rfl := some.inj hi
      have hcases : t = 3 ∨ t = last := by
        simpa [chainGraph, GgmlTensor.parents, List.reduceOption] using ht
      rcases hcases with rfl | rfl
      · exact .inr ⟨2, by decide, rfl⟩
      · rcases h with rfl | rfl
        · exact .inr ⟨0, by decide, rfl⟩
        · exact .inr ⟨1, by decide, rfl⟩
    · cases hi
  viewSrc := by
    intro v t h
    rw [chainGraph_viewSrc] at h
    cases h

theorem chainGraph_fine : (chainGraph last).Fine where
  counted := fun _ _ v _ t h => absurd h (by rw [chainGraph_viewSrc]; exact nofun)
  outputs := fun t _ _ v hv =>
    absurd (GgmlCgraph.mem_viewsOf.mp hv).2.1 (by rw [chainGraph_viewSrc]; exact nofun)
  inputs := by
    intro t ht
    rcases t with _ | _ | _ | _ | _ | t
    all_goals cases ht

theorem allocGraph_noAliasing_chain : ∃ g₁ placed,
    (newN flatType).reserveNImpl (chainGraph 1) flatType [0] (fun _ => 0) (fun _ => 0) false
      (fun _ => succeeds) = some (true, g₁) ∧
    g₁.allocGraph (chainGraph 1) flatType [0] (fun _ => succeeds) = some (some placed, g₁) ∧
    NoAliasing (chainGraph 1) flatType [0] placed := by
  have hrun : ((newN flatType).reserveNImpl (chainGraph 1) flatType [0] (fun _ => 0) (fun _ => 0)
      false fun _ => succeeds).any
        (fun r => r.1 && !r.2.needsRealloc (chainGraph 1) flatType [0]) := by
    decide +kernel
  obtain ⟨⟨ok, g₁⟩, hreserve, hcheck⟩ := (Option.any_eq_true _ _).mp hrun
  rw [Bool.and_eq_true, Bool.not_eq_true'] at hcheck
  obtain ⟨rfl, hkeep⟩ : ok = true ∧ _ := hcheck
  have hord : (chainGraph 1).Ordered := chainGraph_ordered (.inl rfl)
  obtain ⟨placed, halloc, -, hno⟩ := allocGraph_noAliasing hord chainGraph_fine hord .refl hreserve hkeep
  exact ⟨g₁, placed, hreserve, halloc, hno⟩

/-- Node 3 is written where node 1 was, which the other graph still reads. -/
theorem other_edges_overwrite : (chainGraph 1).Ordered ∧ (chainGraph 1).Fine ∧
    (chainGraph 2).Ordered ∧ (chainGraph 2).Fine ∧ ∃ g₁ g₂ placed,
      (newN flatType).reserveNImpl (chainGraph 2) flatType [0] (fun _ => 0) (fun _ => 0) false
        (fun _ => succeeds) = some (true, g₁) ∧
      g₁.needsRealloc (chainGraph 1) flatType [0] = false ∧
      g₁.allocGraph (chainGraph 1) flatType [0] (fun _ => succeeds) = some (some placed, g₂) ∧
      ¬NoAliasing (chainGraph 1) flatType [0] placed := by
  have hord : (chainGraph 1).Ordered := chainGraph_ordered (.inl rfl)
  refine ⟨hord, chainGraph_fine, chainGraph_ordered (.inr rfl), chainGraph_fine, ?_⟩
  have hrun : ((newN flatType).reserveNImpl (chainGraph 2) flatType [0] (fun _ => 0) (fun _ => 0)
      false fun _ => succeeds).any
        (fun r => r.1 && (!r.2.needsRealloc (chainGraph 1) flatType [0] &&
          (r.2.allocGraph (chainGraph 1) flatType [0] fun _ => succeeds).any fun s =>
            s.1.any fun placed => placed 1 = some (0, ⟨0, 16⟩) && placed 3 = some (0, ⟨0, 16⟩))) := by
    decide +kernel
  obtain ⟨⟨ok, g₁⟩, hreserve, hcheck⟩ := (Option.any_eq_true _ _).mp hrun
  rw [Bool.and_eq_true, Bool.and_eq_true, Bool.not_eq_true'] at hcheck
  obtain ⟨rfl, hkeep, halloc⟩ : ok = true ∧ _ ∧ _ := hcheck
  obtain ⟨⟨addrs, g₂⟩, halloc, hplace⟩ := (Option.any_eq_true _ _).mp halloc
  obtain ⟨placed, hsome, hat⟩ := (Option.any_eq_true _ _).mp hplace
  obtain rfl : addrs = some placed := hsome
  rw [Bool.and_eq_true, decide_eq_true_eq, decide_eq_true_eq] at hat
  refine ⟨g₁, g₂, placed, hreserve, hkeep, halloc, fun hno => ?_⟩
  have hcovers : ∀ t, placed t = some (0, ⟨0, 16⟩) →
      Covers (chainGraph 1) flatType [0] placed t 0 ⟨0, 16⟩ := fun t ht =>
    ⟨0, ⟨0, 16⟩, ht, rfl, rfl, Nat.le_refl 16, show 16 < 16 + 16 by decide⟩
  rcases hno 1 3 (by decide) ⟨rfl, rfl, rfl⟩ ⟨rfl, rfl, rfl⟩ 0 ⟨0, 16⟩ (hcovers 1 hat.1)
    (hcovers 3 hat.2) with h | h
  · -- the last node uses 1 after 3 is written
    obtain ⟨-, -, k, hk, huses⟩ := h
    obtain rfl : k = 2 := GgmlCgraph.nodes_inj hord hk rfl
    have hread : 1 ∈ ((chainGraph 1).tensor 4).parents := show 1 ∈ [3, 1] by decide
    have huse : (chainGraph 1).Uses 3 1 := ⟨4, rfl, .inr (.inr (.inl hread))⟩
    rcases huses with hover | ⟨-, hlast⟩
    · exact absurd (hover 3 huse) (by decide)
    · exact absurd (hlast 3 huse) (by decide)
  · exact absurd (h.le hord (i := 2) (j := 0) rfl rfl) (by decide)

end Gallocr

end LlamaCpp
