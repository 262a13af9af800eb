import LlamaCpp.Alloc.Aliasing
import Mathlib.Data.List.ReduceOption

/-!
# A plan does not alias live tensors

The three loops of `ggml_gallocr_alloc_graph_impl` keep `Placed`.  The first two place the
leafs and inputs and count the edges (`Counting`).  In the third one `Counts` ties the counters
to the edges that are left: a counter that is 0 means that the uses are over.

`plan_noAlias` is the result for a whole plan.
-/

namespace LlamaCpp

open List Option

namespace Planner

variable {G : GgmlCgraph} {B : BufferTypes} {bufts : List Nat} {g g' : Planner} {t u p : Nat}
  {bufferId : Int} {f : HashNode → HashNode}

/-! ## What does not count -/

theorem Allocates.counters (h : Allocates G B bufts g t g') (u : Nat) :
    (g'.hash u).nChildren = (g.hash u).nChildren ∧ (g'.hash u).nViews = (g.hash u).nViews := by
  cases h with
  | skip => exact ⟨rfl, rfl⟩
  | fresh _ _ _ _ _ hhash =>
    rw [hhash]
    split
    · next hut => rw [hut]; exact ⟨rfl, rfl⟩
    · exact ⟨rfl, rfl⟩
  | reuse _ _ _ _ _ _ _ _ _ _ hhash =>
    rw [hhash]
    split
    · next hut => rw [hut]; exact ⟨rfl, rfl⟩
    · split
      · next hup => rw [hup]; exact ⟨rfl, rfl⟩
      · exact ⟨rfl, rfl⟩

theorem freeNode_counters (h : g.freeNode G B bufts t = some g') (u : Nat) :
    (g'.hash u).nChildren = (g.hash u).nChildren ∧ (g'.hash u).nViews = (g.hash u).nViews := by
  unfold freeNode at h
  split at h
  · obtain rfl := some.inj h
    exact ⟨rfl, rfl⟩
  · obtain ⟨b, hb, h⟩ := bind_eq_some_iff.mp h
    obtain ⟨talloc, hfree, h⟩ := bind_eq_some_iff.mp h
    obtain rfl := some.inj h
    rw [modify_hash, setTalloc_hash]
    split
    · next hut => rw [hut]; exact ⟨rfl, rfl⟩
    · exact ⟨rfl, rfl⟩

/-- A tensor that has a place, or needs none, is skipped. -/
theorem allocateNode_skip (hskip : ¬G.Own t ∨ (g.hash t).allocated)
    (h : g.allocateNode G B bufts t bufferId = some g') : g' = g := by
  unfold allocateNode at h
  rw [if_pos (isAllocated_or_view.mpr hskip)] at h
  split at h
  · cases h
  · exact (some.inj h).symm

/-! ## Before the first node -/

/-- Nothing was freed yet. -/
def AllPlaced (G : GgmlCgraph) (B : BufferTypes) (bufts : List Nat) (g : Planner) : Prop :=
  Placed G B bufts 0 (fun t => (g.hash t).allocated) g

theorem Placed.of_iff {i : Nat} {pl pl' : Nat → Prop} (h : Placed G B bufts i pl g)
    (hiff : ∀ t, pl' t ↔ pl t) : Placed G B bufts i pl' g := by
  obtain rfl : pl' = pl := funext fun t => propext (hiff t)
  exact h

theorem Placed.modify {i : Nat} {pl : Nat → Prop} (h : Placed G B bufts i pl g)
    (hf : ∀ hn, (f hn).addr = hn.addr ∧ (f hn).bufferId = hn.bufferId ∧
      (f hn).allocated = hn.allocated) : Placed G B bufts i pl (g.modify t f) := by
  have hsame : ∀ u, ((g.modify t f).hash u).addr = (g.hash u).addr ∧
      ((g.modify t f).hash u).bufferId = (g.hash u).bufferId ∧
      ((g.modify t f).hash u).allocated = (g.hash u).allocated := by
    intro u
    rw [modify_hash]
    split
    · next hut => rw [hut]; exact hf _
    · exact ⟨rfl, rfl, rfl⟩
  exact h.congr rfl (fun u => (hsame u).1) (fun u => (hsame u).2.1) fun u => (hsame u).2.2

theorem modify_allocated (hf : ∀ hn, (f hn).allocated = hn.allocated) (u : Nat) :
    ((g.modify t f).hash u).allocated = (g.hash u).allocated := by
  rw [modify_hash]
  split
  · next hut => rw [hut, hf]
  · rfl

theorem AllPlaced.modify (h : AllPlaced G B bufts g)
    (hf : ∀ hn, (f hn).addr = hn.addr ∧ (f hn).bufferId = hn.bufferId ∧
      (f hn).allocated = hn.allocated) : AllPlaced G B bufts (g.modify t f) := by
  refine Placed.of_iff (Placed.modify h hf) fun u => ?_
  rw [modify_allocated fun hn => (hf hn).2.2]

/-- A tensor that takes over no place gets one of its own. -/
theorem AllPlaced.allocateNode (h : AllPlaced G B bufts g)
    (hself : (G.tensor t).op.canInplace → G.Own t → ¬(G.tensor t).output →
      (g.hash t).nChildren = 1 → t ∉ (G.tensor t).parents)
    (hno : (G.tensor t).op.canInplace → ∀ u, ¬Reusable G g t u)
    (hrun : g.allocateNode G B bufts t bufferId = some g') : AllPlaced G B bufts g' ∧
      (∀ u, (g'.hash u).allocated ↔ (g.hash u).allocated ∨ G.Own t ∧ u = t) ∧
      ∀ u, (g'.hash u).nChildren = (g.hash u).nChildren ∧ (g'.hash u).nViews = (g.hash u).nViews := by
  have halloc := allocateNode_allocates h.allocatedOwn hself hrun
  have hcount := halloc.counters
  cases halloc with
  | skip hskip =>
    refine ⟨h, fun u => ⟨.inl, fun hu => ?_⟩, hcount⟩
    rcases hu with hu | ⟨hown, rfl⟩
    · exact hu
    · exact hskip.resolve_left (not_not_intro hown)
  | fresh hown hnew hb hal htallocs hhash =>
    have hiff : ∀ u, (g'.hash u).allocated ↔ (g.hash u).allocated ∨ u = t := by
      intro u
      rw [hhash]
      split
      · next hut => exact iff_of_true rfl (.inr hut)
      · next hut => exact ⟨.inl, fun hu => hu.resolve_right hut⟩
    have hplaced := Placed.fresh h hown hnew (fun u hu hnot => absurd hu hnot) hb hal htallocs hhash
    exact ⟨hplaced.of_iff hiff, fun u => (hiff u).trans (or_congr_right (and_iff_right hown).symm), hcount⟩
  | reuse _ _ _ hop hp => exact absurd hp (hno hop _)

/-- The counters after the edges `edges` and the nodes `nodes`. -/
structure Counting (G : GgmlCgraph) (B : BufferTypes) (bufts : List Nat) (edges nodes : List Nat)
    (g : Planner) : Prop where
  placed : AllPlaced G B bufts g
  early : ∀ t, (g.hash t).allocated → G.Early t
  children : ∀ t, (g.hash t).nChildren = edges.count t
  views : ∀ t, (g.hash t).nViews = (nodes.filter fun v =>
    (G.tensor v).viewSrc = some t ∧ (G.tensor v).op ≠ .none).length

variable {edges nodes : List Nat}

theorem Counting.allocate (h : Counting G B bufts edges nodes g)
    (hself : (G.tensor t).op.canInplace → G.Own t → ¬(G.tensor t).output →
      (g.hash t).nChildren = 1 → t ∉ (G.tensor t).parents)
    (hno : (G.tensor t).op.canInplace → ∀ u, ¬Reusable G g t u) (hearly : G.Early t)
    (hrun : g.allocateNode G B bufts t bufferId = some g') :
    Counting G B bufts edges nodes g' ∧ (G.Own t → (g'.hash t).allocated) ∧
      ∀ u, (g.hash u).allocated → (g'.hash u).allocated := by
  obtain ⟨hpl, hiff, hcount⟩ := h.placed.allocateNode hself hno hrun
  refine ⟨⟨hpl, fun u hu => ?_, fun u => (hcount u).1.trans (h.children u),
    fun u => (hcount u).2.trans (h.views u)⟩, fun hown => (hiff t).mpr (.inr ⟨hown, rfl⟩),
    fun u hu => (hiff u).mpr (.inl hu)⟩
  rcases (hiff u).mp hu with hu | ⟨-, rfl⟩
  · exact h.early u hu
  · exact hearly

theorem Counting.input (h : Counting G B bufts edges nodes g) (hF : G.Fine)
    (hrun : (if (G.tensor t).input then g.allocateNode G B bufts t bufferId
      else some g) = some g') :
    Counting G B bufts edges nodes g' ∧ ((G.tensor t).input → G.Own t → (g'.hash t).allocated) ∧
      ∀ u, (g.hash u).allocated → (g'.hash u).allocated := by
  split at hrun
  · next hin =>
    have hself : (G.tensor t).op.canInplace → G.Own t → ¬(G.tensor t).output →
        (g.hash t).nChildren = 1 → t ∉ (G.tensor t).parents := fun hop hown hout _ hmem =>
      (hF.inputs t hin hop t hmem hown (.inr hin)).elim hout fun hne => hne rfl
    have hno : (G.tensor t).op.canInplace → ∀ u, ¬Reusable G g t u := fun hop u hu =>
      (hF.inputs t hin hop u hu.mem (h.placed.allocatedOwn u hu.allocated)
        (h.early u hu.allocated)).elim hu.output fun hne => hne hu.layout
    obtain ⟨hc, hdone, hkeep⟩ := h.allocate hself hno (.inr hin) hrun
    exact ⟨hc, fun _ => hdone, hkeep⟩
  · next hin =>
    obtain rfl := some.inj hrun
    exact ⟨h, fun hin' => absurd hin' hin, fun _ hu => hu⟩

theorem Counting.edge (h : Counting G B bufts edges nodes g) (src : Nat) :
    Counting G B bufts (edges ++ [src]) nodes
      (g.modify src fun hn => { hn with nChildren := hn.nChildren + 1 }) := by
  refine ⟨h.placed.modify fun _ => ⟨rfl, rfl, rfl⟩,
    fun t ht => h.early t (by rwa [modify_allocated fun _ => by rfl] at ht), fun t => ?_, fun t => ?_⟩
  · rw [modify_hash, count_append, count_singleton]
    split
    · next hu => simp [hu, h.children src]
    · next hu => simp [Ne.symm hu, h.children t]
  · rw [modify_hash]
    split
    · next hu => rw [hu]; exact h.views src
    · exact h.views t

def countView (G : GgmlCgraph) (g : Planner) (node : Nat) : Planner :=
  match (G.tensor node).viewSrc with
  | some v => if (G.tensor node).op ≠ .none then
      g.modify v fun hn => { hn with nViews := hn.nViews + 1 } else g
  | none => g

theorem countView_allocated (node u : Nat) : ((countView G g node).hash u).allocated = (g.hash u).allocated := by
  unfold countView
  split
  · split
    · exact modify_allocated (fun _ => by rfl) u
    · rfl
  · rfl

theorem Counting.node (h : Counting G B bufts edges nodes g) (node : Nat) :
    Counting G B bufts edges (nodes ++ [node]) (countView G g node) := by
  have hsame : (∀ t, ¬((G.tensor node).viewSrc = some t ∧ (G.tensor node).op ≠ .none)) →
      Counting G B bufts edges (nodes ++ [node]) g := by
    intro hnot
    refine ⟨h.placed, h.early, h.children, fun t => ?_⟩
    rw [filter_append, filter_singleton, decide_eq_false (hnot t), length_append, h.views t]
    rfl
  unfold countView
  cases hv : (G.tensor node).viewSrc with
  | none => exact hsame fun t ht => by rw [hv] at ht; cases ht.1
  | some v =>
    dsimp only
    split
    · next hop =>
      refine ⟨h.placed.modify fun _ => ⟨rfl, rfl, rfl⟩,
        fun t ht => h.early t (by rwa [modify_allocated fun _ => by rfl] at ht), fun t => ?_, fun t => ?_⟩
      · rw [modify_hash]
        split
        · next hu => rw [hu]; exact h.children v
        · exact h.children t
      · rw [modify_hash, filter_append, filter_singleton, length_append, hv]
        split
        · next hu => simp [hu, hop, h.views v]
        · next hu => simp [Ne.symm hu, h.views t]
    · next hop => exact hsame fun t ht => hop ht.2

/-- The tensors that are allocated before the first node. -/
def Inputs (G : GgmlCgraph) (i : Nat) (g : Planner) : Prop :=
  (∀ t ∈ G.leafs, G.Own t → (g.hash t).allocated) ∧
    ∀ t ∈ G.nodes.take i, (G.tensor t).input → G.Own t → (g.hash t).allocated

theorem Inputs.mono {i : Nat} (h : Inputs G i g)
    (hkeep : ∀ u, (g.hash u).allocated → (g'.hash u).allocated) : Inputs G i g' :=
  ⟨fun t ht hown => hkeep t (h.1 t ht hown), fun t ht hin hown => hkeep t (h.2 t ht hin hown)⟩

theorem countNode_counting {i node : Nat} (hF : G.Fine) (hnode : G.nodes[i]? = some node)
    (h : Counting G B bufts ((G.nodes.take i).flatMap fun t => (G.tensor t).parents) (G.nodes.take i) g)
    (hin : Inputs G i g) (hrun : g.countNode G B bufts bufferId node = some g') :
    Counting G B bufts ((G.nodes.take (i + 1)).flatMap fun t => (G.tensor t).parents)
      (G.nodes.take (i + 1)) g' ∧ Inputs G (i + 1) g' := by
  have htake : G.nodes.take (i + 1) = G.nodes.take i ++ [node] := by
    rw [take_add_one, hnode]
    rfl
  have hsplit : ∃ g₁, (if (G.tensor node).input then (countView G g node).allocateNode G B bufts node
        bufferId else some (countView G g node)) = some g₁ ∧
      (G.tensor node).parents.foldlM (fun g src =>
        let g := g.modify src fun hn => { hn with nChildren := hn.nChildren + 1 }
        if (G.tensor src).input then g.allocateNode G B bufts src bufferId else some g) g₁ = some g' := by
    unfold countNode at hrun
    extract_lets t g₀ at hrun
    split at hrun
    · next hinput =>
      rw [if_pos hinput]
      exact bind_eq_some_iff.mp hrun
    · next hinput =>
      rw [if_neg hinput]
      exact ⟨_, rfl, hrun⟩
  obtain ⟨g₁, hone, hloop⟩ := hsplit
  obtain ⟨h₁, hdone, hkeep⟩ := (h.node node).input hF hone
  simp only [countView_allocated] at hkeep
  have hin₁ : Inputs G (i + 1) g₁ := by
    refine ⟨fun u hu hown => hkeep u (hin.1 u hu hown), fun u hu hinput hown => ?_⟩
    rw [htake, List.mem_append, mem_singleton] at hu
    rcases hu with hu | rfl
    · exact hkeep u (hin.2 u hu hinput hown)
    · exact hdone hinput hown
  rw [htake, flatMap_append, flatMap_singleton]
  -- the edges of the node, with those that are left
  have hend := Loops.foldlM_rest (I := fun rest g => (∃ done, done ++ rest = (G.tensor node).parents ∧
      Counting G B bufts ((G.nodes.take i).flatMap (fun t => (G.tensor t).parents) ++ done)
        (G.nodes.take i ++ [node]) g) ∧ Inputs G (i + 1) g)
    ⟨⟨[], rfl, by rwa [append_nil]⟩, hin₁⟩ (fun src rest s s' hI hstep => ?_) hloop
  · obtain ⟨⟨done, hdone, hcount⟩, hinputs⟩ := hend
    rw [append_nil] at hdone
    exact ⟨hdone ▸ hcount, hinputs⟩
  · obtain ⟨⟨done, hdone, hcount⟩, hinputs⟩ := hI
    obtain ⟨hcount', -, hkeep'⟩ := (hcount.edge src).input hF hstep
    refine ⟨⟨done ++ [src], ?_, ?_⟩, hinputs.mono fun u hu => hkeep' u ?_⟩
    · rw [← hdone, append_assoc, singleton_append]
    · rwa [← append_assoc]
    · rwa [modify_allocated fun _ => by rfl]

/-! ## The nodes -/

/-- The counters with the edges `rem` left. -/
structure Counts (G : GgmlCgraph) (rem : List Nat) (g : Planner) : Prop where
  children : ∀ t, (g.hash t).nChildren = rem.count t
  views : ∀ t, G.Own t → (g.hash t).nViews = (G.holding rem t).length
  ofView : ∀ t v, (G.tensor t).viewSrc = some v → (g.hash t).nViews = 0

theorem Counts.congr {rem : List Nat} (h : Counts G rem g)
    (hsame : ∀ u, (g'.hash u).nChildren = (g.hash u).nChildren ∧
      (g'.hash u).nViews = (g.hash u).nViews) : Counts G rem g' :=
  ⟨fun t => (hsame t).1.trans (h.children t), fun t hown => (hsame t).2.trans (h.views t hown),
    fun t v hv => (hsame t).2.trans (h.ofView t v hv)⟩

/-- The counters after the second loop. -/
theorem Counting.counts (hG : G.Ordered) (h : Counting G B bufts
      (G.nodes.flatMap fun t => (G.tensor t).parents) G.nodes g) : Counts G (G.edgesFrom 0) g := by
  refine ⟨h.children, fun t _ => ?_, fun t v hv => ?_⟩
  · have hall : G.holding (G.edgesFrom 0) t = G.viewsOf t :=
      filter_eq_self.mpr fun v _ => decide_eq_true (Classical.em _)
    rw [hall]
    exact h.views t
  · have hnone : G.nodes.filter (fun v => (G.tensor v).viewSrc = some t ∧ (G.tensor v).op ≠ .none) = [] := by
      refine filter_eq_nil_iff.mpr fun u _ hu => ?_
      have hsrc := hG.viewSrc u t (of_decide_eq_true hu).1
      rw [hv] at hsrc
      cases hsrc
    rw [h.views t, hnone]
    rfl

/-- A parent of node `i`, or the source of one, is a leaf or an earlier node. -/
theorem placed_before (hG : G.Ordered) {i node t : Nat} (hnode : G.nodes[i]? = some node)
    (ht : t ∈ (G.tensor node).parents ∨ (G.tensor node).viewSrc = some t) (hmem : t ∈ G.nodes) :
    ∃ j < i, G.nodes[j]? = some t :=
  (hG.before i node t hnode ht).resolve_left fun hleaf => hG.leaf_notMem t hleaf hmem

section Node

variable (hG : G.Ordered) (hF : G.Fine) {i node : Nat} {rest : List Nat} {pl : Nat → Prop}
include hG hF

/-- A tensor whose counters are 0 is freed. -/
theorem Placed.release (hrest : ∀ x ∈ G.edgesFrom i, x ∈ rest) (h : Placed G B bufts i pl g)
    (hc : Counts G rest g) (hbefore : t ∈ G.nodes → ∃ j < i, G.nodes[j]? = some t)
    (hchildren : (g.hash t).nChildren = 0) (hviews : (g.hash t).nViews = 0)
    (halloc : (g.hash t).allocated) (hrun : g.freeNode G B bufts t = some g') :
    Placed G B bufts i pl g' := by
  have hown := h.allocatedOwn t halloc
  have hcount : rest.count t = 0 := by
    have := hc.children t
    omega
  have hholding : G.holding rest t = [] := by
    have := hc.views t hown
    exact length_eq_zero_iff.mp (by omega)
  have hedges : t ∉ G.edgesFrom i := fun hmem => count_eq_zero.mp hcount (hrest t hmem)
  exact h.free halloc (fun hout => ⟨GgmlCgraph.not_keeps hF hown hout hholding,
    fun k => GgmlCgraph.uses_lt hG hF hown hbefore hrest hedges hholding⟩) hrun

theorem updateParent_step (hnode : G.nodes[i]? = some node) (hp : p ∈ (G.tensor node).parents)
    (hrest : ∀ x ∈ G.edgesFrom (i + 1), x ∈ rest) (h : Placed G B bufts (i + 1) pl g)
    (hc : Counts G (p :: rest) g) (hrun : g.updateParent G B bufts p = some g') :
    Placed G B bufts (i + 1) pl g' ∧ Counts G rest g' := by
  have hedge : p ∈ G.edgesFrom 0 :=
    GgmlCgraph.mem_edgesFrom.mpr ⟨i, Nat.zero_le i, node, hnode, hp⟩
  have hbefore : ∀ t, t ∈ G.nodes → ∀ k, k ≤ i → ∀ v, G.nodes[k]? = some v →
      (t ∈ (G.tensor v).parents ∨ (G.tensor v).viewSrc = some t) →
      ∃ j < i + 1, G.nodes[j]? = some t := by
    intro t hmem k hk v hv ht
    obtain ⟨j, hj, hget⟩ := placed_before hG hv ht hmem
    exact ⟨j, by omega, hget⟩
  unfold updateParent at hrun
  extract_lets g₁ at hrun
  have h₁ : Placed G B bufts (i + 1) pl g₁ := h.modify fun _ => ⟨rfl, rfl, rfl⟩
  have hchildren : ∀ t, (g₁.hash t).nChildren = rest.count t := by
    intro t
    have hold := hc.children t
    rw [count_cons] at hold
    rw [modify_hash]
    split
    · next ht =>
      subst ht
      rw [beq_self_eq_true, if_pos rfl] at hold
      push_cast at hold
      dsimp only
      omega
    · next ht =>
      rw [beq_false_of_ne (Ne.symm ht), if_neg Bool.false_ne_true] at hold
      exact hold
  have hviews : ∀ t, (g₁.hash t).nViews = (g.hash t).nViews := by
    intro t
    rw [modify_hash]
    split
    · next ht => rw [ht]
    · rfl
  -- unless the last edge of a view is done, the views hold their sources as before
  have hkeep : (∀ t, G.Own t → ¬(p ∈ G.viewsOf t ∧ p ∉ rest)) → Counts G rest g₁ := by
    intro hno
    refine ⟨hchildren, fun t hown => ?_, fun t v hv => (hviews t).trans (hc.ofView t v hv)⟩
    rw [hviews, hc.views t hown, GgmlCgraph.holding_cons hG hedge, if_neg (hno t hown), Nat.add_zero]
  split at hrun
  · next hzero =>
    have hcount : rest.count p = 0 := by
      have := hchildren p
      omega
    cases hsrc : (G.tensor p).viewSrc with
    | none =>
      rw [hsrc] at hrun
      dsimp only at hrun
      have hc₁ : Counts G rest g₁ := hkeep fun t _ hpv => by
        have := (GgmlCgraph.mem_viewsOf.mp hpv.1).2.1
        rw [hsrc] at this
        cases this
      split at hrun
      · next halloc =>
        exact ⟨Placed.release hG hF hrest h₁ hc₁
          (fun hmem => hbefore p hmem i (Nat.le_refl i) node hnode (.inl hp)) hzero.1 hzero.2 halloc hrun,
          hc₁.congr (freeNode_counters hrun)⟩
      · obtain rfl := some.inj hrun
        exact ⟨h₁, hc₁⟩
    | some v =>
      rw [hsrc] at hrun
      dsimp only at hrun
      set g₂ := g₁.modify v fun hn => { hn with nViews := hn.nViews - 1 } with hg₂
      have h₂ : Placed G B bufts (i + 1) pl g₂ := h₁.modify fun _ => ⟨rfl, rfl, rfl⟩
      have hc₂ : Counts G rest g₂ := by
        refine ⟨fun t => ?_, fun t hown => ?_, fun t w hw => ?_⟩
        · rw [hg₂, modify_hash]
          split
          · next ht => rw [ht]; exact hchildren v
          · exact hchildren t
        · have hold := hc.views t hown
          rw [GgmlCgraph.holding_cons hG hedge, ← hviews] at hold
          rw [hg₂, modify_hash]
          split
          · next ht =>
            subst ht
            obtain ⟨hmem, hop⟩ := hF.counted node (mem_of_getElem? hnode) p hp t hsrc hown
            have hlast : p ∈ G.viewsOf t ∧ p ∉ rest :=
              ⟨GgmlCgraph.mem_viewsOf.mpr ⟨hmem, hsrc, hop⟩, count_eq_zero.mp hcount⟩
            rw [if_pos hlast] at hold
            push_cast at hold
            dsimp only
            omega
          · next ht =>
            have hother : ¬(p ∈ G.viewsOf t ∧ p ∉ rest) := fun hpv => by
              have := (GgmlCgraph.mem_viewsOf.mp hpv.1).2.1
              rw [hsrc] at this
              exact ht (some.inj this).symm
            rwa [if_neg hother, Nat.add_zero] at hold
        · have hne : t ≠ v := by
            rintro rfl
            rw [hG.viewSrc p t hsrc] at hw
            cases hw
          rw [hg₂, modify_hash, if_neg hne, hviews]
          exact hc.ofView t w hw
      split at hrun
      · next hdone =>
        refine ⟨Placed.release hG hF hrest h₂ hc₂ (fun hmem => ?_) hdone.2.1 hdone.1 hdone.2.2 hrun,
          hc₂.congr (freeNode_counters hrun)⟩
        have hown := h₂.allocatedOwn v hdone.2.2
        obtain ⟨hpmem, -⟩ := hF.counted node (mem_of_getElem? hnode) p hp v hsrc hown
        obtain ⟨k, hk, hget⟩ := placed_before hG hnode (.inl hp) hpmem
        exact hbefore v hmem k (by omega) p hget (.inr hsrc)
      · obtain rfl := some.inj hrun
        exact ⟨h₂, hc₂⟩
  · next hzero =>
    obtain rfl := some.inj hrun
    refine ⟨h₁, hkeep fun t _ hpv => ?_⟩
    have hsrc := (GgmlCgraph.mem_viewsOf.mp hpv.1).2.1
    have hcount := count_eq_zero.mpr hpv.2
    refine hzero ⟨?_, (hviews p).trans (hc.ofView p t hsrc)⟩
    rw [hchildren, hcount]
    rfl

/-- The edges of node `i` are done. -/
theorem updateParents (hnode : G.nodes[i]? = some node) (h : Placed G B bufts (i + 1) pl g)
    (hc : Counts G (G.edgesFrom i) g)
    (hrun : (G.tensor node).parents.foldlM (fun g p => g.updateParent G B bufts p) g = some g') :
    Placed G B bufts (i + 1) pl g' ∧ Counts G (G.edgesFrom (i + 1)) g' := by
  rw [GgmlCgraph.edgesFrom_eq_cons hnode] at hc
  have hend := Loops.foldlM_rest (I := fun rest g => (∀ p ∈ rest, p ∈ (G.tensor node).parents) ∧
      Placed G B bufts (i + 1) pl g ∧ Counts G (rest ++ G.edgesFrom (i + 1)) g)
    ⟨fun _ hp => hp, h, hc⟩ (fun p rest s s' hI hstep => ?_) hrun
  · exact ⟨hend.2.1, by simpa using hend.2.2⟩
  · obtain ⟨hmem, hpl, hcounts⟩ := hI
    exact ⟨fun q hq => hmem q (mem_cons_of_mem p hq),
      updateParent_step hG hF hnode (hmem p mem_cons_self)
        (fun x hx => mem_append_right rest hx) hpl hcounts hstep⟩

/-- A node gets a place, of its own or that of a parent of which it is the last child. -/
theorem allocateNode_step (hnode : G.nodes[i]? = some node) (h : Placed G B bufts i pl g)
    (hc : Counts G (G.edgesFrom i) g) (hearly : G.Early node → G.Own node → pl node) {bufferId : Int}
    (hrun : g.allocateNode G B bufts node bufferId = some g') :
    Placed G B bufts (i + 1) (fun t => pl t ∨ G.Own node ∧ t = node) g' ∧ Counts G (G.edgesFrom i) g' := by
  have huse : G.Uses i node := ⟨node, hnode, .inl rfl⟩
  have hself : node ∉ (G.tensor node).parents := by
    intro hmem
    obtain ⟨j, hj, hget⟩ := placed_before hG hnode (.inl hmem) (mem_of_getElem? hnode)
    exact Nat.ne_of_lt hj (GgmlCgraph.nodes_inj hG hget hnode)
  have halloc := allocateNode_allocates h.allocatedOwn (fun _ _ _ _ => hself) hrun
  refine ⟨?_, hc.congr halloc.counters⟩
  -- a tensor that has lost its place has no uses left
  have hlost : ¬(g.hash node).allocated → ¬pl node := fun hnot hpl =>
    Nat.lt_irrefl i ((h.dead node hpl hnot).2 i huse)
  have hshare : ¬(g.hash node).allocated → G.Own node → ∀ u, pl u → ¬(g.hash u).allocated → G.Shares u node := by
    intro hnot hown u hu hdead
    exact ⟨(h.dead u hu hdead).1, fun hin => hlost hnot (hearly hin hown), i, hnode, .inl (h.dead u hu hdead).2⟩
  cases halloc with
  | skip hskip =>
    refine (h.mono (Nat.le_succ i)).of_iff fun t => ⟨fun ht => ?_, .inl⟩
    rcases ht with ht | ⟨hown, rfl⟩
    · exact ht
    · exact h.alloc t (hskip.resolve_left (not_not_intro hown))
  | fresh hown hnew hb hal htallocs hhash =>
    have hplaced := h.fresh hown (hlost hnew) (hshare hnew hown) hb hal htallocs hhash
    exact (hplaced.mono (Nat.le_succ i)).of_iff fun t => or_congr_right (and_iff_right hown)
  | @reuse hown hnew p b hne hop hp hb hle _ halign hlen hcover hhash =>
    have hpown := h.allocatedOwn p hp.allocated
    have hcount : (G.edgesFrom i).count p = 1 := by
      have := hc.children p
      rw [hp.children] at this
      omega
    have hholding : G.holding (G.edgesFrom i) p = [] := by
      have := hc.views p hpown
      rw [hp.views] at this
      exact length_eq_zero_iff.mp (by omega)
    have hnext : p ∉ G.edgesFrom (i + 1) := by
      rw [GgmlCgraph.edgesFrom_eq_cons hnode, count_append] at hcount
      have hpos := count_pos_iff.mpr hp.mem
      exact count_eq_zero.mp (by omega)
    have hbefore : p ∈ G.nodes → ∃ j < i + 1, G.nodes[j]? = some p := fun hmem => by
      obtain ⟨j, hj, hget⟩ := placed_before hG hnode (.inl hp.mem) hmem
      exact ⟨j, by omega, hget⟩
    have hsub : ∀ x ∈ G.edgesFrom (i + 1), x ∈ G.edgesFrom i := fun x hx => by
      rw [GgmlCgraph.edgesFrom_eq_cons hnode]
      exact mem_append_right _ hx
    have huses : ∀ k, G.Uses k p → k < i + 1 := fun k =>
      GgmlCgraph.uses_lt hG hF hpown hbefore hsub hnext hholding
    have hkeeps := GgmlCgraph.not_keeps hF hpown hp.output hholding
    have hps : G.Shares p node := ⟨hkeeps, fun hin => hlost hnew (hearly hin hown), i, hnode,
      .inr ⟨hp.mem, fun k hk => Nat.le_of_lt_succ (huses k hk)⟩⟩
    have hplaced := h.reuse hown (hlost hnew) (hshare hnew hown) (Nat.le_succ i) hp.allocated hps
      ⟨hkeeps, huses⟩ hb hle halign hlen hcover hhash
    exact hplaced.of_iff fun t => or_congr_right (and_iff_right hown)

/-- The body of the third loop. -/
theorem allocNode_step (hnode : G.nodes[i]? = some node) (h : Placed G B bufts i pl g)
    (hc : Counts G (G.edgesFrom i) g) (hearly : G.Early node → G.Own node → pl node)
    (hbefore : ∀ t ∈ (G.tensor node).parents, G.Own t → pl t) {bufferId : Int}
    (hrun : g.allocNode G B bufts bufferId node = some g') :
    Placed G B bufts (i + 1) (fun t => pl t ∨ G.Own node ∧ t = node) g' ∧ Counts G (G.edgesFrom (i + 1)) g' := by
  obtain ⟨g₁, hparents, hrun⟩ := bind_eq_some_iff.mp hrun
  obtain ⟨g₂, hone, hupdate⟩ := bind_eq_some_iff.mp hrun
  -- the parents have their places
  obtain rfl : g₁ = g := by
    refine Loops.foldlM_inv (I := fun s => s = g) rfl (fun p hp s s' hs hstep => ?_) hparents
    subst hs
    refine allocateNode_skip ?_ hstep
    by_contra hnot
    rw [not_or, not_not] at hnot
    exact Nat.lt_irrefl i ((h.dead p (hbefore p hp hnot.1) hnot.2).2 i ⟨node, hnode, .inr (.inr (.inl hp))⟩)
  obtain ⟨h₂, hc₂⟩ := allocateNode_step hG hF hnode h hc hearly hone
  exact updateParents hG hF hnode h₂ hc₂ hupdate

end Node

/-! ## A whole plan -/

/-- The tensors that have a place before node `i`: those that are placed before the first node,
and earlier nodes. -/
def Started (G : GgmlCgraph) (pl₀ : Nat → Prop) (i t : Nat) : Prop :=
  pl₀ t ∨ G.Own t ∧ ∃ j < i, G.nodes[j]? = some t

theorem started_succ {pl₀ : Nat → Prop} {i node t : Nat} (hnode : G.nodes[i]? = some node) :
    Started G pl₀ (i + 1) t ↔ Started G pl₀ i t ∨ G.Own node ∧ t = node := by
  unfold Started
  constructor
  · rintro (ht | ⟨hown, j, hj, hget⟩)
    · exact .inl (.inl ht)
    · rcases Nat.lt_succ_iff_lt_or_eq.mp hj with hlt | rfl
      · exact .inl (.inr ⟨hown, j, hlt, hget⟩)
      · obtain rfl := some.inj (hnode.symm.trans hget)
        exact .inr ⟨hown, rfl⟩
  · rintro ((ht | ⟨hown, j, hj, hget⟩) | ⟨hown, rfl⟩)
    · exact .inl ht
    · exact .inr ⟨hown, j, Nat.lt_succ_of_lt hj, hget⟩
    · exact .inr ⟨hown, i, Nat.lt_succ_self i, hnode⟩

/-- The first two loops. -/
theorem count_placed (hG : G.Ordered) (hF : G.Fine) {leafIds nodeIds : Nat → Int} {g₁ : Planner}
    (hempty : ∀ b, (g.tallocs b).chunks = [])
    (hleafs : G.leafs.zipIdx.foldlM (fun g leaf => g.allocateNode G B bufts leaf.1 (leafIds leaf.2))
      { g with hash := fun _ => {} } = some g₁)
    (hnodes : G.nodes.zipIdx.foldlM (fun g node => g.countNode G B bufts (nodeIds node.2) node.1) g₁ = some g') :
    AllPlaced G B bufts g' ∧ Counts G (G.edgesFrom 0) g' ∧ Inputs G G.nodes.length g' := by
  have hstart : AllPlaced G B bufts { g with hash := fun _ => {} } := by
    have hnone : ∀ t, ¬(({ g with hash := fun _ => {} } : Planner).hash t).allocated := fun _ => nofun
    have hcover : ∀ b q, (g.tallocs b).cover q = 0 := fun b q =>
      DynTallocr.cover_eq_zero (by rw [hempty]; exact Nat.zero_le _)
    exact ⟨fun t ht => absurd ht (hnone t), fun t ht => ht, fun t ht => absurd ht (hnone t),
      fun b q => (hcover b q).symm ▸ Nat.zero_le 1, fun t ht => absurd ht (hnone t),
      fun t _ _ ht => absurd ht (hnone t), fun t ht => absurd ht (hnone t),
      fun t _ _ ht => absurd ht (hnone t)⟩
  have hfirst := Loops.foldlM_zipIdx (I := fun i g => Counting G B bufts [] [] g ∧
      ∀ t ∈ G.leafs.take i, G.Own t → (g.hash t).allocated)
    ⟨⟨hstart, fun _ => nofun, fun _ => rfl, fun _ => rfl⟩, fun t ht => absurd ht (by simp)⟩
    (fun i leaf hleaf s s' hI hstep => ?_) hleafs
  · rw [take_length] at hfirst
    have hsecond := Loops.foldlM_zipIdx (I := fun i g =>
        Counting G B bufts ((G.nodes.take i).flatMap fun t => (G.tensor t).parents) (G.nodes.take i) g ∧ Inputs G i g)
      ⟨hfirst.1, hfirst.2, fun t ht => absurd ht (by simp)⟩
      (fun i node hnode s s' hI hstep => countNode_counting hF hnode hI.1 hI.2 hstep) hnodes
    rw [take_length] at hsecond
    exact ⟨hsecond.1.placed, hsecond.1.counts hG, hsecond.2⟩
  · obtain ⟨hcount, hleafs⟩ := hI
    have hzero : ∀ u, (s.hash u).nChildren ≠ 1 := fun u => by
      rw [hcount.children u]
      exact nofun
    obtain ⟨hcount', hdone, hkeep⟩ := hcount.allocate (fun _ _ _ hone => absurd hone (hzero leaf))
      (fun _ u hu => hzero u hu.children) (.inl (mem_of_getElem? hleaf)) hstep
    refine ⟨hcount', fun t ht hown => ?_⟩
    rw [take_add_one, hleaf, List.mem_append] at ht
    rcases ht with ht | ht
    · exact hkeep t (hleafs t ht hown)
    · obtain rfl : t = leaf := by simpa using ht
      exact hdone hown

/-- The invariant holds at the end of a plan. -/
theorem allocGraphImpl_placed (hG : G.Ordered) (hF : G.Fine) {nodeIds leafIds : Nat → Int}
    (hempty : ∀ b, (g.tallocs b).chunks = [])
    (hrun : g.allocGraphImpl G B bufts nodeIds leafIds = some g') :
    ∃ pl, Placed G B bufts G.nodes.length pl g' ∧ ∀ t, G.Own t → t ∈ G.leafs ∨ t ∈ G.nodes → pl t := by
  obtain ⟨g₁, hleafs, hrun⟩ := bind_eq_some_iff.mp hrun
  obtain ⟨g₂, hcount, hnodes⟩ := bind_eq_some_iff.mp hrun
  obtain ⟨h₂, hc₂, hin⟩ := count_placed hG hF hempty hleafs hcount
  have hstarted : ∀ t, Started G (fun t => (g₂.hash t).allocated) 0 t ↔ (g₂.hash t).allocated :=
    fun t => ⟨fun ht => ht.resolve_right fun ⟨_, j, hj, _⟩ => Nat.not_lt_zero j hj, .inl⟩
  have hend := Loops.foldlM_zipIdx (I := fun i g =>
      Placed G B bufts i (Started G (fun t => (g₂.hash t).allocated) i) g ∧ Counts G (G.edgesFrom i) g)
    ⟨Placed.of_iff h₂ hstarted, hc₂⟩ (fun i node hnode s s' hI hstep => ?_) hnodes
  · refine ⟨_, hend.1, fun t hown ht => ?_⟩
    rcases ht with hleaf | hmem
    · exact .inl (hin.1 t hleaf hown)
    · obtain ⟨j, hj⟩ := mem_iff_getElem?.mp hmem
      exact .inr ⟨hown, j, (List.getElem?_eq_some_iff.mp hj).1, hj⟩
  · have hmem := mem_of_getElem? hnode
    have hearly : G.Early node → G.Own node → Started G (fun t => (g₂.hash t).allocated) i node := by
      rintro (hleaf | hinput) hown
      · exact .inl (hin.1 node hleaf hown)
      · exact .inl (hin.2 node (by rwa [take_length]) hinput hown)
    have hparents : ∀ t ∈ (G.tensor node).parents, G.Own t → Started G (fun t => (g₂.hash t).allocated) i t := by
      intro t ht hown
      rcases hG.before i node t hnode (.inl ht) with hleaf | hearlier
      · exact .inl (hin.1 t hleaf hown)
      · exact .inr ⟨hown, hearlier⟩
    obtain ⟨hpl, hcounts⟩ := allocNode_step hG hF hnode hI.1 hI.2 hearly hparents hstep
    exact ⟨hpl.of_iff fun t => started_succ hnode, hcounts⟩

/-- Byte `q` of the chunks for buffer type `b` is a byte of tensor `t`. -/
def Occupies (G : GgmlCgraph) (B : BufferTypes) (bufts : List Nat) (g : Planner) (t b : Nat)
    (q : BufferAddress) : Prop :=
  bufts[(g.hash t).bufferId]? = some b ∧ q.chunk = (g.hash t).addr.chunk ∧
    (g.hash t).addr.offset ≤ q.offset ∧
    q.offset < (g.hash t).addr.offset + B.allocSize b (G.tensor t)

/-- Where the bytes of two tensors meet, one of them is written when the other one is not used
any more, or in place at its last use; and that one is not an output. -/
def NoAlias (G : GgmlCgraph) (B : BufferTypes) (bufts : List Nat) (g : Planner) : Prop :=
  ∀ x y, x ≠ y → G.Own x → G.Own y → (x ∈ G.leafs ∨ x ∈ G.nodes) → (y ∈ G.leafs ∨ y ∈ G.nodes) →
    ∀ b q, Occupies G B bufts g x b q → Occupies G B bufts g y b q → G.Shares x y ∨ G.Shares y x

theorem Occupies.holds {b : Nat} {q : BufferAddress} (h : Occupies G B bufts g t b q) : Holds G B bufts g t b q :=
  ⟨h.1, h.2.1, h.2.2.1, Nat.lt_of_lt_of_le h.2.2.2 (Nat.add_le_add_left (le_alignedOffset ..) _)⟩

end Planner

namespace Gallocr

open Planner

/-- In the plan for a graph, live tensors do not alias. -/
theorem plan_noAlias {G : GgmlCgraph} {B : BufferTypes} {bufts : List Nat} {g : Gallocr}
    {planner : Planner} (hG : G.Ordered) (hF : G.Fine) {nodeIds leafIds : Nat → Int}
    (hplan : g.plan G B bufts nodeIds leafIds = some planner) : NoAlias G B bufts planner := by
  have hempty : ∀ b, ((g.planner.tallocs b).reset).chunks = [] := fun _ => rfl
  obtain ⟨pl, hplaced, hall⟩ := allocGraphImpl_placed hG hF hempty hplan
  intro x y hne hx hy hxmem hymem b q hqx hqy
  exact hplaced.law x y hne (hall x hx hxmem) (hall y hy hymem) b q hqx.holds hqy.holds

/-! ### An output that is a view -/

/-- `a` (1), a view of it that is an output (2), a node that reads the view (3) and its child (4);
`a` is an output if `out`. -/
def viewChain (out : Bool) : GgmlCgraph where
  tensor
    | 0 => { op := .none, layout := ⟨0, [4], [4]⟩ }
    | 1 => { op := .other 0, layout := ⟨0, [4], [4]⟩, src := [some 0], output := out }
    | 2 => { op := .other 1, layout := ⟨0, [4], [4]⟩, src := [some 1], viewSrc := some 1, output := true }
    | 3 => { op := .other 0, layout := ⟨0, [4], [4]⟩, src := [some 2] }
    | 4 => { op := .other 0, layout := ⟨0, [4], [4]⟩, src := [some 3] }
    | _ => { op := .none, layout := ⟨0, [], []⟩ }
  nodes := [1, 2, 3, 4]
  leafs := [0]

/-- A buffer type where every tensor takes 16 bytes. -/
def flatType : BufferTypes where
  alignment _ := 16
  maxSize _ := 1024
  allocSize _ _ := 16

theorem viewChain_viewSrc {out : Bool} {v t : Nat} (h : ((viewChain out).tensor v).viewSrc = some t) :
    v = 2 ∧ t = 1 := by
  rcases v with _ | _ | _ | v
  · cases h
  · cases h
  · exact ⟨rfl, (some.inj h).symm⟩
  · rcases v with _ | _ | v
    all_goals cases h

theorem viewChain_ordered (out : Bool) : (viewChain out).Ordered where
  nodup := show [1, 2, 3, 4].Nodup by decide
  leaf_notMem := by
    intro t ht
    obtain rfl := mem_singleton.mp ht
    exact show 0 ∉ [1, 2, 3, 4] by decide
  before := by
    intro i node t hi h
    rcases i with _ | _ | _ | _ | i
    · obtain rfl := some.inj hi
      exact .inl (by simpa [viewChain, GgmlTensor.parents, List.reduceOption] using h)
    · obtain rfl := some.inj hi
      obtain rfl : t = 1 := by simpa [viewChain, GgmlTensor.parents, List.reduceOption, eq_comm] using h
      exact .inr ⟨0, by decide, rfl⟩
    · obtain rfl := some.inj hi
      obtain rfl : t = 2 := by simpa [viewChain, GgmlTensor.parents, List.reduceOption] using h
      exact .inr ⟨1, by decide, rfl⟩
    · obtain rfl := some.inj hi
      obtain rfl : t = 3 := by simpa [viewChain, GgmlTensor.parents, List.reduceOption] using h
      exact .inr ⟨2, by decide, rfl⟩
    · cases hi
  viewSrc := by
    intro v t h
    obtain ⟨-, rfl⟩ := viewChain_viewSrc h
    rfl

theorem viewChain_fine : (viewChain true).Fine where
  counted := by
    intro node hnode v hv t ht hown
    obtain ⟨rfl, rfl⟩ := viewChain_viewSrc ht
    exact ⟨show 2 ∈ [1, 2, 3, 4] by decide, nofun⟩
  outputs := by
    intro t hown hread v hv hout
    obtain ⟨rfl, rfl⟩ := viewChain_viewSrc (GgmlCgraph.mem_viewsOf.mp hv).2.1
    rfl
  inputs := by
    intro t ht
    rcases t with _ | _ | _ | _ | _ | t
    all_goals cases ht

theorem plan_noAlias_viewChain : ∃ planner,
    (newN flatType).plan (viewChain true) flatType [0] (fun _ => 0) (fun _ => 0) = some planner ∧
      NoAlias (viewChain true) flatType [0] planner := by
  have hsome : ((newN flatType).plan (viewChain true) flatType [0] (fun _ => 0) fun _ => 0).isSome := by
    decide +kernel
  obtain ⟨planner, hplan⟩ := isSome_iff_exists.mp hsome
  exact ⟨planner, hplan, plan_noAlias (viewChain_ordered true) viewChain_fine hplan⟩

/-- The last child of the view gives up the bytes of `a`, and with them the output. -/
theorem output_view_overwritten : (viewChain false).Ordered ∧ ∃ planner,
    (newN flatType).plan (viewChain false) flatType [0] (fun _ => 0) (fun _ => 0) = some planner ∧
      ¬NoAlias (viewChain false) flatType [0] planner := by
  have hplan : ((newN flatType).plan (viewChain false) flatType [0] (fun _ => 0) fun _ => 0).any
      (fun planner => (planner.hash 1).bufferId = 0 ∧ (planner.hash 1).addr = ⟨0, 16⟩ ∧
        (planner.hash 4).bufferId = 0 ∧ (planner.hash 4).addr = ⟨0, 16⟩) := by
    decide +kernel
  obtain ⟨planner, hrun, hplace⟩ := (Option.any_eq_true _ _).mp hplan
  obtain ⟨hid, haddr, hid', haddr'⟩ := of_decide_eq_true hplace
  refine ⟨viewChain_ordered false, planner, hrun, fun hno => ?_⟩
  have hocc : ∀ t, (planner.hash t).bufferId = 0 → (planner.hash t).addr = ⟨0, 16⟩ →
      Occupies (viewChain false) flatType [0] planner t 0 ⟨0, 16⟩ := by
    intro t hid haddr
    refine ⟨?_, ?_, ?_, ?_⟩
    · exact congrArg (fun i => ([0] : List Nat)[i]?) hid
    · rw [haddr]
    · exact Nat.le_of_eq (congrArg (·.offset) haddr)
    · rw [haddr]
      exact show 16 < 16 + 16 by decide
  have hmem : ∀ t ∈ [1, 2, 4], t ∈ (viewChain false).nodes :=
    show ∀ t ∈ [1, 2, 4], t ∈ [1, 2, 3, 4] by decide
  rcases hno 1 4 (by decide) ⟨rfl, rfl, rfl⟩ ⟨rfl, rfl, rfl⟩ (.inr (hmem 1 (by decide)))
    (.inr (hmem 4 (by decide))) 0 ⟨0, 16⟩ (hocc 1 hid haddr) (hocc 4 hid' haddr') with h | h
  · -- the view is an output
    exact h.1 (.inr ⟨2, GgmlCgraph.mem_viewsOf.mpr ⟨hmem 2 (by decide), rfl, nofun⟩, rfl⟩)
  · exact absurd (h.le (viewChain_ordered false) (i := 3) (j := 0) rfl rfl) (by decide)

end Gallocr

end LlamaCpp
