import LlamaCpp.Alloc.Planner
import Mathlib.Data.List.Nodup

/-!
# The lifetimes of the tensors of a graph

When a tensor is used can be read off the graph: by its own node, by the nodes that have it
or a view of it as a parent, and by the views of it.  `Shares` says which tensor may give its
bytes to which.  The planner does not look at uses but counts edges down; the lemmas connect
the edges that remain with the uses that are left.
-/

namespace LlamaCpp.GgmlCgraph

open List

variable (G : GgmlCgraph)

/-- A tensor that the planner allocates. -/
def Own (t : Nat) : Prop :=
  (G.tensor t).viewSrc = none ∧ (G.tensor t).data = none ∧ (G.tensor t).buffer = none

/-- Allocated before the first node. -/
def Early (t : Nat) : Prop := t ∈ G.leafs ∨ (G.tensor t).input

/-- Node `i` reads or writes the bytes of `t`; a view without an operation does nothing. -/
def Uses (i t : Nat) : Prop :=
  ∃ node, G.nodes[i]? = some node ∧ (node = t ∨
    ((G.tensor node).viewSrc = some t ∧ (G.tensor node).op ≠ .none) ∨
    t ∈ (G.tensor node).parents ∨
    ∃ v ∈ (G.tensor node).parents, (G.tensor v).viewSrc = some t)

/-- The views of `t` that are counted. -/
def viewsOf (t : Nat) : List Nat :=
  G.nodes.filter fun v => (G.tensor v).viewSrc = some t ∧ (G.tensor v).op ≠ .none

/-- The bytes of a graph output: the tensor or a view of it is one. -/
def Keeps (t : Nat) : Prop := (G.tensor t).output ∨ ∃ v ∈ G.viewsOf t, (G.tensor v).output

/-- Node `y` may write into the bytes of `x`: all uses of `x` are over, or this is the last
one and works in place. -/
def Shares (x y : Nat) : Prop :=
  ¬G.Keeps x ∧ ¬G.Early y ∧ ∃ i, G.nodes[i]? = some y ∧
    ((∀ j, G.Uses j x → j < i) ∨ (x ∈ (G.tensor y).parents ∧ ∀ j, G.Uses j x → j ≤ i))

/-- The nodes are in topological order, and view sources are not views. -/
structure Ordered : Prop where
  nodup : G.nodes.Nodup
  leaf_notMem : ∀ t ∈ G.leafs, t ∉ G.nodes
  /-- A parent or a view source is a leaf or an earlier node. -/
  before : ∀ (i node t : Nat), G.nodes[i]? = some node →
    t ∈ (G.tensor node).parents ∨ (G.tensor node).viewSrc = some t →
    t ∈ G.leafs ∨ ∃ j < i, G.nodes[j]? = some t
  viewSrc : ∀ v t, (G.tensor v).viewSrc = some t → (G.tensor t).viewSrc = none

/-- The parents of the nodes from `i` on, in order. -/
def edgesFrom (i : Nat) : List Nat := (G.nodes.drop i).flatMap fun t => (G.tensor t).parents

/-- What the counters of the planner need. -/
structure Fine : Prop where
  /-- A view that is read is counted: it is a node with an operation. -/
  counted : ∀ node ∈ G.nodes, ∀ v ∈ (G.tensor node).parents, ∀ t,
    (G.tensor v).viewSrc = some t → G.Own t → v ∈ G.nodes ∧ (G.tensor v).op ≠ .none
  /-- Where all views are read, only a view of an output is an output. -/
  outputs : ∀ t, G.Own t → (∀ v ∈ G.viewsOf t, v ∈ G.edgesFrom 0) →
    ∀ v ∈ G.viewsOf t, (G.tensor v).output → (G.tensor t).output
  /-- An input that could work in place has no parent whose place it could take over early. -/
  inputs : ∀ t, (G.tensor t).input → (G.tensor t).op.canInplace →
    ∀ p ∈ (G.tensor t).parents, G.Own p → G.Early p →
      (G.tensor p).output ∨ (G.tensor t).layout ≠ (G.tensor p).layout

/-! ## Edges -/

/-- The views that still hold their source: those with a child to come, and those that never
have one. -/
def holding (rem : List Nat) (t : Nat) : List Nat :=
  (G.viewsOf t).filter fun v => v ∈ rem ∨ v ∉ G.edgesFrom 0

variable {G} {i t : Nat} {rem : List Nat}

theorem edgesFrom_eq_cons {node : Nat} (h : G.nodes[i]? = some node) :
    G.edgesFrom i = (G.tensor node).parents ++ G.edgesFrom (i + 1) := by
  obtain ⟨hlt, hget⟩ := List.getElem?_eq_some_iff.mp h
  unfold edgesFrom
  rw [drop_eq_getElem_cons hlt, flatMap_cons, hget]

theorem mem_edgesFrom :
    t ∈ G.edgesFrom i ↔ ∃ j ≥ i, ∃ node, G.nodes[j]? = some node ∧ t ∈ (G.tensor node).parents := by
  unfold edgesFrom
  rw [mem_flatMap]
  constructor
  · rintro ⟨node, hnode, ht⟩
    obtain ⟨k, hk⟩ := mem_iff_getElem?.mp hnode
    rw [getElem?_drop] at hk
    exact ⟨i + k, Nat.le_add_right i k, node, hk, ht⟩
  · rintro ⟨j, hj, node, hnode, ht⟩
    refine ⟨node, mem_iff_getElem?.mpr ⟨j - i, ?_⟩, ht⟩
    rw [getElem?_drop, Nat.add_sub_cancel' hj]
    exact hnode

theorem mem_viewsOf {v : Nat} :
    v ∈ G.viewsOf t ↔ v ∈ G.nodes ∧ (G.tensor v).viewSrc = some t ∧ (G.tensor v).op ≠ .none := by
  simp [viewsOf]

theorem mem_holding {v : Nat} : v ∈ G.holding rem t ↔ v ∈ G.viewsOf t ∧ (v ∈ rem ∨ v ∉ G.edgesFrom 0) := by
  simp [holding]

theorem nodes_inj (hG : G.Ordered) {j : Nat} (hi : G.nodes[i]? = some t) (hj : G.nodes[j]? = some t) : i = j := by
  obtain ⟨hlt, hget⟩ := List.getElem?_eq_some_iff.mp hi
  obtain ⟨hlt', hget'⟩ := List.getElem?_eq_some_iff.mp hj
  exact (List.Nodup.getElem_inj_iff hG.nodup).mp (hget.trans hget'.symm)

/-- Bytes go to a later node only. -/
theorem Shares.le (hG : G.Ordered) {x y j : Nat} (h : G.Shares x y) (hx : G.nodes[i]? = some x)
    (hy : G.nodes[j]? = some y) : i ≤ j := by
  obtain ⟨-, -, k, hk, huses⟩ := h
  obtain rfl := nodes_inj hG hk hy
  have huse : G.Uses i x := ⟨x, hx, .inl rfl⟩
  rcases huses with hover | ⟨-, hlast⟩
  · exact Nat.le_of_lt (hover i huse)
  · exact hlast i huse

/-- A child comes behind its parents. -/
theorem child_gt (hG : G.Ordered) {j v node : Nat} (hv : G.nodes[i]? = some v)
    (hnode : G.nodes[j]? = some node) (hp : v ∈ (G.tensor node).parents) : i < j := by
  rcases hG.before j node v hnode (.inl hp) with hleaf | ⟨k, hk, hget⟩
  · exact absurd (mem_of_getElem? hv) (hG.leaf_notMem v hleaf)
  · rwa [nodes_inj hG hv hget]

/-- Where neither the tensor nor a view of it has an edge left, no uses are left. -/
theorem uses_lt (hG : G.Ordered) (hF : G.Fine) (hown : G.Own t)
    (hplaced : t ∈ G.nodes → ∃ j < i, G.nodes[j]? = some t) (hrem : ∀ x ∈ G.edgesFrom i, x ∈ rem)
    (hedges : t ∉ G.edgesFrom i) (hviews : G.holding rem t = []) {j : Nat} (huse : G.Uses j t) :
    j < i := by
  by_contra hge
  have hge : i ≤ j := Nat.not_lt.mp hge
  have hno : ∀ v, v ∈ G.viewsOf t → v ∉ rem ∧ v ∈ G.edgesFrom 0 := by
    intro v hv
    have hnot : v ∉ G.holding rem t := hviews ▸ not_mem_nil
    rw [mem_holding, not_and, not_or, not_not] at hnot
    exact hnot hv
  obtain ⟨node, hnode, rfl | ⟨hsrc, hop⟩ | hp | ⟨v, hv, hsrc⟩⟩ := huse
  · obtain ⟨k, hk, hget⟩ := hplaced (mem_of_getElem? hnode)
    have := nodes_inj hG hnode hget
    omega
  · -- a view that is read later is still an edge
    obtain ⟨hnot, hedge⟩ := hno node (mem_viewsOf.mpr ⟨mem_of_getElem? hnode, hsrc, hop⟩)
    obtain ⟨k, -, child, hchild, hpar⟩ := mem_edgesFrom.mp hedge
    have hlt := child_gt hG hnode hchild hpar
    exact hnot (hrem node (mem_edgesFrom.mpr ⟨k, by omega, child, hchild, hpar⟩))
  · exact hedges (mem_edgesFrom.mpr ⟨j, hge, node, hnode, hp⟩)
  · obtain ⟨hmem, hop⟩ := hF.counted node (mem_of_getElem? hnode) v hv t hsrc hown
    obtain ⟨hnot, -⟩ := hno v (mem_viewsOf.mpr ⟨hmem, hsrc, hop⟩)
    exact hnot (hrem v (mem_edgesFrom.mpr ⟨j, hge, node, hnode, hv⟩))

/-- And the tensor is not an output, unless it is flagged itself. -/
theorem not_keeps (hF : G.Fine) (hown : G.Own t) (hout : ¬(G.tensor t).output)
    (hviews : G.holding rem t = []) : ¬G.Keeps t := by
  have hread : ∀ v ∈ G.viewsOf t, v ∈ G.edgesFrom 0 := by
    intro v hv
    have hnot : v ∉ G.holding rem t := hviews ▸ not_mem_nil
    rw [mem_holding, not_and, not_or, not_not] at hnot
    exact (hnot hv).2
  rintro (h | ⟨v, hv, hvout⟩)
  · exact hout h
  · exact hout (hF.outputs t hown hread v hv hvout)

/-- One edge less: only the view that it comes from may stop holding its source. -/
theorem holding_cons (hG : G.Ordered) {p : Nat} {rest : List Nat} (hp : p ∈ G.edgesFrom 0) :
    (G.holding (p :: rest) t).length = (G.holding rest t).length + if p ∈ G.viewsOf t ∧ p ∉ rest then 1 else 0 := by
  have hnodup : ∀ rem, (G.holding rem t).Nodup := fun rem => (hG.nodup.filter _).filter _
  split
  · next h =>
    have hperm : (G.holding (p :: rest) t).Perm (p :: G.holding rest t) := by
      refine (perm_ext_iff_of_nodup (hnodup _) (nodup_cons.mpr ⟨?_, hnodup _⟩)).mpr ?_
      · rw [mem_holding]
        rintro ⟨-, hin | hout⟩
        · exact h.2 hin
        · exact hout hp
      · intro v
        rw [mem_cons, mem_holding, mem_holding, mem_cons]
        constructor
        · rintro ⟨hv, (rfl | hin) | hout⟩
          · exact .inl rfl
          · exact .inr ⟨hv, .inl hin⟩
          · exact .inr ⟨hv, .inr hout⟩
        · rintro (rfl | ⟨hv, hin | hout⟩)
          · exact ⟨h.1, .inl (.inl rfl)⟩
          · exact ⟨hv, .inl (.inr hin)⟩
          · exact ⟨hv, .inr hout⟩
    rw [hperm.length_eq, length_cons]
  · next h =>
    have hsame : G.holding (p :: rest) t = G.holding rest t := by
      refine filter_congr fun v hv => ?_
      simp only [mem_cons, decide_eq_decide]
      constructor
      · rintro ((rfl | hin) | hout)
        · exact .inl (by_contra fun hnot => h ⟨hv, hnot⟩)
        · exact .inl hin
        · exact .inr hout
      · rintro (hin | hout)
        · exact .inl (.inr hin)
        · exact .inr hout
    rw [hsame, Nat.add_zero]

end LlamaCpp.GgmlCgraph
