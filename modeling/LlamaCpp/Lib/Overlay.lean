import Mathlib.Data.List.Induction
import Mathlib.Order.Lattice

/-!
# Layers over one another

A layer has values at some places.  `overlay` lays a list of layers over one another, the
last on top.  A value of it comes from the last layer that has one at the place, and if
the layers are in the order of their keys, from the one of the greatest key.

`insertKey` is a map in the order of its keys.  What it holds after a list of insertions is
what was last inserted at every key.
-/

namespace Overlay

open List

universe u v w

variable {α : Type u} {β : Type v} {κ : Type w}

/-- A layer over the values `m`. -/
def cover (m f : α → Option β) (p : α) : Option β := (f p).or (m p)

/-- The layers over one another, the last on top. -/
def overlay (ls : List (α → Option β)) : α → Option β := ls.foldl cover fun _ => none

variable {ls ls' : List (α → Option β)} {f m : α → Option β} {p : α} {v : β}

@[simp] theorem overlay_nil (p : α) : overlay ([] : List (α → Option β)) p = none := rfl

theorem foldl_cover (ls : List (α → Option β)) (m : α → Option β) (p : α) :
    ls.foldl cover m p = (overlay ls p).or (m p) := by
  induction ls using List.reverseRecOn with
  | nil => rfl
  | append_singleton ls f ih =>
    simp only [overlay, foldl_append, foldl_cons, foldl_nil] at ih ⊢
    simp only [cover, ih, Option.or_assoc]

theorem foldl_cover_map {ι : Type w} (F : ι → α → Option β) (xs : List ι) (m : α → Option β) (p : α) :
    xs.foldl (fun m x => cover m (F x)) m p = (overlay (xs.map F) p).or (m p) := by
  rw [← foldl_cover, foldl_map]

theorem overlay_append (ls ls' : List (α → Option β)) (p : α) :
    overlay (ls ++ ls') p = (overlay ls' p).or (overlay ls p) := by
  rw [overlay, foldl_append, foldl_cover]
  rfl

@[simp] theorem overlay_singleton (f : α → Option β) (p : α) : overlay [f] p = f p := by
  simp [overlay, cover]

theorem overlay_eq_none_iff : overlay ls p = none ↔ ∀ f ∈ ls, f p = none := by
  induction ls using List.reverseRecOn with
  | nil => simp
  | append_singleton ls f ih =>
    rw [overlay_append, overlay_singleton, Option.or_eq_none_iff, ih]
    simp only [List.mem_append, mem_singleton]
    constructor
    · rintro ⟨hf, hls⟩ g (hg | rfl)
      · exact hls g hg
      · exact hf
    · intro h
      exact ⟨h f (.inr rfl), fun g hg => h g (.inl hg)⟩

/-- Layers that agree, each with its counterpart, at a place with another one. -/
theorem overlay_map_eq {ι : Type w} {F G : ι → α → Option β} {xs : List ι} {q : α}
    (h : ∀ x ∈ xs, F x p = G x q) : overlay (xs.map F) p = overlay (xs.map G) q := by
  induction xs using List.reverseRecOn with
  | nil => rfl
  | append_singleton xs x ih =>
    simp only [map_append, map_singleton, overlay_append, overlay_singleton]
    rw [h x (by simp), ih fun y hy => h y (by simp [hy])]

/-- The last of the layers that has a value at `p` has `v` there. -/
def Last (ls : List (α → Option β)) (p : α) (v : β) : Prop :=
  ∃ pre f post, ls = pre ++ f :: post ∧ f p = some v ∧ ∀ g ∈ post, g p = none

theorem overlay_eq_some_iff : overlay ls p = some v ↔ Last ls p v := by
  constructor
  · intro h
    induction ls using List.reverseRecOn with
    | nil => cases h
    | append_singleton ls f ih =>
      rw [overlay_append, overlay_singleton] at h
      cases hf : f p with
      | some b =>
        rw [hf] at h
        exact ⟨ls, f, [], rfl, hf.trans h, fun g hg => nomatch hg⟩
      | none =>
        rw [hf, Option.none_or] at h
        obtain ⟨pre, g, post, rfl, hg, hpost⟩ := ih h
        refine ⟨pre, g, post ++ [f], by simp, hg, ?_⟩
        intro g' hg'
        rcases List.mem_append.mp hg' with hg' | hg'
        · exact hpost g' hg'
        · rw [mem_singleton.mp hg', hf]
  · rintro ⟨pre, f, post, rfl, hf, hpost⟩
    have hnone : overlay post p = none := overlay_eq_none_iff.mpr hpost
    rw [append_cons, overlay_append, overlay_append, hnone, overlay_singleton, hf]
    rfl

section Keys

variable [LinearOrder κ]

/-- A map in the order of its keys, with `x` at `k`. -/
def insertKey {ξ : Type u} (k : κ) (x : ξ) : List (κ × ξ) → List (κ × ξ)
  | [] => [(k, x)]
  | (k', x') :: xs =>
    if k < k' then (k, x) :: (k', x') :: xs
    else if k = k' then (k, x) :: xs
    else (k', x') :: insertKey k x xs

variable {ξ : Type u} {k k' : κ} {x x' : ξ} {xs : List (κ × ξ)}

theorem lookup_insertKey (k : κ) (x : ξ) (xs : List (κ × ξ)) (k' : κ) :
    (insertKey k x xs).lookup k' = if k' = k then some x else xs.lookup k' := by
  induction xs with
  | nil =>
    by_cases heq : k' = k
    · simp [insertKey, heq]
    · simp [insertKey, lookup_cons, beq_eq_false_iff_ne.mpr heq, heq]
  | cons y xs ih =>
    obtain ⟨ky, y⟩ := y
    simp only [insertKey]
    split
    · by_cases heq : k' = k
      · simp [heq]
      · simp [lookup_cons, beq_eq_false_iff_ne.mpr heq, heq]
    · split
      · next hsame =>
          subst hsame
          by_cases heq : k' = k
          · simp [heq]
          · simp [lookup_cons, beq_eq_false_iff_ne.mpr heq, heq]
      · next hnlt hne =>
          rw [lookup_cons, lookup_cons, ih]
          by_cases heq : k' = ky
          · simp [heq, Ne.symm hne]
          · simp [beq_eq_false_iff_ne.mpr heq]

def Sorted (xs : List (κ × ξ)) : Prop := xs.Pairwise (·.1 < ·.1)

theorem mem_insertKey (h : Sorted xs) : (k', x') ∈ insertKey k x xs ↔ k' = k ∧ x' = x ∨ k' ≠ k ∧ (k', x') ∈ xs := by
  induction xs with
  | nil => simp [insertKey]
  | cons y xs ih =>
    obtain ⟨ky, y⟩ := y
    obtain ⟨hy, hxs⟩ := pairwise_cons.mp h
    specialize ih hxs
    simp only [insertKey]
    split
    · next hlt =>
        have hne : ∀ z, (k', z) ∈ (ky, y) :: xs → k' ≠ k := by
          intro z hz
          rcases mem_cons.mp hz with hz | hz
          · exact (Prod.mk.inj hz).1 ▸ hlt.ne'
          · exact (hlt.trans (hy _ hz)).ne'
        simp only [mem_cons, Prod.mk.injEq] at hne ⊢
        constructor
        · rintro (h | h)
          · exact .inl h
          · exact .inr ⟨hne x' h, h⟩
        · rintro (h | h)
          · exact .inl h
          · exact .inr h.2
    · split
      · next heq =>
          subst heq
          have hne : ∀ z, (k', z) ∈ xs → k' ≠ k := fun z hz => (hy _ hz).ne'
          simp only [mem_cons, Prod.mk.injEq]
          constructor
          · rintro (h | h)
            · exact .inl h
            · exact .inr ⟨hne x' h, .inr h⟩
          · rintro (h | ⟨h, h' | h'⟩)
            · exact .inl h
            · exact absurd h'.1 h
            · exact .inr h'
      · next hnlt hne =>
          simp only [mem_cons, Prod.mk.injEq, ih]
          constructor
          · rintro (⟨rfl, rfl⟩ | h | h)
            · exact .inr ⟨fun heq => hne heq.symm, .inl ⟨rfl, rfl⟩⟩
            · exact .inl h
            · exact .inr ⟨h.1, .inr h.2⟩
          · rintro (h | ⟨h, h' | h'⟩)
            · exact .inr (.inl h)
            · exact .inl h'
            · exact .inr (.inr ⟨h, h'⟩)

theorem Sorted.insertKey (h : Sorted xs) (k : κ) (x : ξ) : Sorted (insertKey k x xs) := by
  induction xs with
  | nil => exact pairwise_singleton _ _
  | cons y xs ih =>
    obtain ⟨ky, y⟩ := y
    obtain ⟨hy, hxs⟩ := pairwise_cons.mp h
    simp only [Overlay.insertKey]
    split
    · next hlt =>
        refine pairwise_cons.mpr ⟨?_, h⟩
        intro z hz
        rcases mem_cons.mp hz with rfl | hz
        · exact hlt
        · exact hlt.trans (hy z hz)
    · split
      · next heq => exact pairwise_cons.mpr ⟨fun z hz => heq ▸ hy z hz, hxs⟩
      · next hnlt hne =>
          refine pairwise_cons.mpr ⟨?_, ih hxs⟩
          rintro ⟨kz, z⟩ hz
          rcases (mem_insertKey hxs).mp hz with ⟨rfl, rfl⟩ | ⟨-, hz⟩
          · exact lt_of_le_of_ne (not_lt.mp hnlt) (Ne.symm hne)
          · exact hy _ hz

theorem Sorted.lookup_eq_some_iff (h : Sorted xs) : xs.lookup k = some x ↔ (k, x) ∈ xs := by
  induction xs with
  | nil => simp
  | cons y xs ih =>
    obtain ⟨ky, y⟩ := y
    obtain ⟨hy, hxs⟩ := pairwise_cons.mp h
    rw [lookup_cons, mem_cons, Prod.mk.injEq]
    by_cases heq : k = ky
    · subst heq
      have hno : (k, x) ∉ xs := fun hx => (hy _ hx).ne rfl
      simp [hno, eq_comm]
    · simp [beq_eq_false_iff_ne.mpr heq, heq, ih hxs]

/-- The map after the insertions of a list. -/
def inserted (l : List (κ × ξ)) : List (κ × ξ) := l.foldl (fun xs x => insertKey x.1 x.2 xs) []

theorem inserted_append_singleton (l : List (κ × ξ)) (y : κ × ξ) :
    inserted (l ++ [y]) = insertKey y.1 y.2 (inserted l) := by
  rw [inserted, foldl_append]
  rfl

theorem sorted_inserted (l : List (κ × ξ)) : Sorted (inserted l) := by
  induction l using List.reverseRecOn with
  | nil => exact List.Pairwise.nil
  | append_singleton l y ih =>
    rw [inserted_append_singleton]
    exact ih.insertKey y.1 y.2

/-- It has what was inserted last at every key. -/
theorem mem_inserted_iff {l : List (κ × ξ)} :
    (k, x) ∈ inserted l ↔ ∃ pre post, l = pre ++ (k, x) :: post ∧ ∀ y ∈ post, y.1 ≠ k := by
  constructor
  · intro h
    induction l using List.reverseRecOn with
    | nil => cases h
    | append_singleton l y ih =>
      rw [inserted_append_singleton] at h
      rcases (mem_insertKey (sorted_inserted l)).mp h with ⟨rfl, rfl⟩ | ⟨hne, h⟩
      · exact ⟨l, [], rfl, fun z hz => nomatch hz⟩
      · obtain ⟨pre, post, rfl, hpost⟩ := ih h
        refine ⟨pre, post ++ [y], by simp, ?_⟩
        intro z hz
        rcases List.mem_append.mp hz with hz | hz
        · exact hpost z hz
        · rw [mem_singleton.mp hz]
          exact Ne.symm hne
  · rintro ⟨pre, post, rfl, hpost⟩
    induction post using List.reverseRecOn with
    | nil =>
      rw [inserted_append_singleton]
      exact (mem_insertKey (sorted_inserted pre)).mpr (.inl ⟨rfl, rfl⟩)
    | append_singleton post y ih =>
      have hy : y.1 ≠ k := hpost y (by simp)
      have hmem := ih fun z hz => hpost z (by simp [hz])
      rw [← cons_append, ← append_assoc, inserted_append_singleton]
      exact (mem_insertKey (sorted_inserted _)).mpr (.inr ⟨hy.symm, hmem⟩)

/-- Two maps with the same keys, and values that are related. -/
def Related {ζ : Type v} (R : ξ → ζ → Prop) (xs : List (κ × ξ)) (zs : List (κ × ζ)) : Prop :=
  List.Forall₂ (fun x z => x.1 = z.1 ∧ R x.2 z.2) xs zs

theorem Related.insertKey {ζ : Type v} {R : ξ → ζ → Prop} {zs : List (κ × ζ)} {z : ζ} (h : Related R xs zs)
    (hx : R x z) (k : κ) : Related R (insertKey k x xs) (insertKey k z zs) := by
  induction h with
  | nil => exact .cons ⟨rfl, hx⟩ .nil
  | cons hyz hrest ih =>
    next y w ys ws =>
    obtain ⟨ky, y⟩ := y
    obtain ⟨kw, w⟩ := w
    obtain ⟨hk, hyw⟩ := hyz
    subst hk
    simp only [Overlay.insertKey]
    split
    · exact .cons ⟨rfl, hx⟩ (.cons ⟨rfl, hyw⟩ hrest)
    · split
      · exact .cons ⟨rfl, hx⟩ hrest
      · exact .cons ⟨rfl, hyw⟩ ih

/-- A layer for everything in the map, in the order of the keys: the greatest key of those that have a value at the
place is on top. -/
theorem last_map_iff (h : Sorted xs) (layer : ξ → α → Option β) :
    Last (xs.map fun x => layer x.2) p v ↔
      ∃ k x, (k, x) ∈ xs ∧ layer x p = some v ∧ ∀ k' x', (k', x') ∈ xs → layer x' p ≠ none → k' ≤ k := by
  constructor
  · rintro ⟨pre, f, post, heq, hf, hpost⟩
    obtain ⟨pre', rest, rfl, -, hrest⟩ := map_eq_append_iff.mp heq
    obtain ⟨⟨k, x⟩, post', rfl, rfl, rfl⟩ := map_eq_cons_iff.mp hrest
    refine ⟨k, x, by simp, hf, ?_⟩
    intro k' x' hx' hne
    rcases List.mem_append.mp hx' with hx' | hx'
    · exact ((pairwise_append.mp h).2.2 _ hx' _ (mem_cons_self ..)).le
    · rcases mem_cons.mp hx' with hx' | hx'
      · exact (Prod.mk.inj hx').1.le
      · exact absurd (hpost _ (List.mem_map_of_mem hx')) hne
  · rintro ⟨k, x, hx, hv, hmax⟩
    obtain ⟨pre, post, rfl⟩ := append_of_mem hx
    refine ⟨pre.map fun x => layer x.2, layer x, post.map fun x => layer x.2, by simp, hv, ?_⟩
    intro g hg
    obtain ⟨⟨k', x'⟩, hx', rfl⟩ := List.mem_map.mp hg
    by_contra hne
    have hle : k' ≤ k := hmax k' x' (by simp [hx']) hne
    have hlt : k < k' := (pairwise_cons.mp (pairwise_append.mp h).2.1).1 _ hx'
    exact absurd hle (not_le.mpr hlt)

end Keys

end Overlay
