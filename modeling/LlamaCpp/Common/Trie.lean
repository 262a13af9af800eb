import LlamaCpp.Lib.Overlay
import Mathlib.Data.List.Infix

/-!
# The trie

`common_trie` of trie.h: nodes in a vector, each with a map from symbols to the indices of its
children and the index of the pattern that ends there.  `Labelled` says which word leads to which
node; inserting a sequence adds the nodes of its prefixes (`Labelled.insertAll`).

A symbol is a `uint32_t`.
-/

namespace LlamaCpp

open List

open Function (update)

structure TrieNode where
  /-- The map, in the order of its keys. -/
  children : List (Nat × Nat) := []
  pattern : Int := -1

/-- `common_trie`: the first `size` nodes are in the vector. -/
structure CommonTrie where
  nodes : Nat → TrieNode := fun _ => {}
  size : Nat := 1
  nPatterns : Int := 0

namespace CommonTrie

/-- `nodes[u].children.find(ch)` -/
def child (t : CommonTrie) (u ch : Nat) : Option Nat := (t.nodes u).children.lookup ch

/-- `create_node`, which returns the old size. -/
def createNode (t : CommonTrie) : CommonTrie :=
  { t with nodes := update t.nodes t.size ({} : TrieNode), size := t.size + 1 }

/-- `nodes[current].children[ch] = child` -/
def setChild (t : CommonTrie) (current ch child : Nat) : CommonTrie :=
  { t with
    nodes := update t.nodes current
      { t.nodes current with children := Overlay.insertKey ch child (t.nodes current).children } }

/-- The branch of the loop of `insert` that adds a node -/
def addChild (t : CommonTrie) (current ch : Nat) : CommonTrie :=
  t.createNode.setChild current ch t.size

/-- The loop of `insert` over the symbols: the trie, and the node behind them. -/
def insertPath (t : CommonTrie) (current : Nat) : List Nat → CommonTrie × Nat
  | [] => (t, current)
  | ch :: symbols =>
    match t.child current ch with
    | none => (t.addChild current ch).insertPath t.size symbols
    | some child => t.insertPath child symbols

/-- The end of `insert`: a node without a pattern gets the next index. -/
def setPattern (t : CommonTrie) (current : Nat) : CommonTrie :=
  if (t.nodes current).pattern < 0 then
    { t with
      nodes := update t.nodes current { t.nodes current with pattern := t.nPatterns }
      nPatterns := t.nPatterns + 1 }
  else t

/-- `insert`: the trie, and the pattern index of the sequence. -/
def insert (t : CommonTrie) (symbols : List Nat) : CommonTrie × Int :=
  let path := t.insertPath 0 symbols
  let t := path.1.setPattern path.2
  (t, (t.nodes path.2).pattern)

/-- The insertions of a list, from the empty trie: the trie, and the pattern indices. -/
def insertAll (sequences : List (List Nat)) : CommonTrie × List Int :=
  sequences.foldl (fun state symbols =>
    let inserted := state.1.insert symbols
    (inserted.1, state.2 ++ [inserted.2])) ({}, [])

/-- The node that a word leads to. -/
def walk (t : CommonTrie) : Nat → List Nat → Option Nat
  | u, [] => some u
  | u, ch :: symbols =>
    match t.child u ch with
    | none => none
    | some v => t.walk v symbols

/-! ## The words of the nodes -/

/-- `word u` leads to the node `u`. -/
structure Labelled (t : CommonTrie) (word : Nat → List Nat) : Prop where
  size_pos : 0 < t.size
  root : word 0 = []
  child_iff : ∀ u < t.size, ∀ ch v, t.child u ch = some v ↔ v < t.size ∧ word v = word u ++ [ch]
  injective : ∀ u < t.size, ∀ v < t.size, word u = word v → u = v
  parent : ∀ v < t.size, v ≠ 0 → ∃ u < v, ∃ ch, word v = word u ++ [ch]
  sorted : ∀ u < t.size, Overlay.Sorted (t.nodes u).children

variable {t : CommonTrie} {word : Nat → List Nat} {current : Nat}

namespace Labelled

variable {u : Nat}

theorem mem_children_iff (h : t.Labelled word) (hu : u < t.size) {ch v : Nat} :
    (ch, v) ∈ (t.nodes u).children ↔ v < t.size ∧ word v = word u ++ [ch] := by
  rw [← h.child_iff u hu, child, (h.sorted u hu).lookup_eq_some_iff]

/-- A word is no longer than the index of its node. -/
theorem length_le (h : t.Labelled word) (hu : u < t.size) : (word u).length ≤ u := by
  induction u using Nat.strong_induction_on with
  | _ u ih =>
    by_cases hzero : u = 0
    · rw [hzero, h.root]
      exact Nat.le_refl 0
    · obtain ⟨v, hvu, ch, hword⟩ := h.parent u hu hzero
      have hv := ih v hvu (hvu.trans hu)
      rw [hword, length_append, length_singleton]
      omega

theorem word_eq_nil_iff (h : t.Labelled word) (hu : u < t.size) : word u = [] ↔ u = 0 := by
  constructor
  · intro hnil
    exact h.injective u hu 0 h.size_pos (hnil.trans h.root.symm)
  · rintro rfl
    exact h.root

/-- There is a node for every prefix. -/
theorem exists_of_append (h : t.Labelled word) {v : Nat} (hv : v < t.size) {xs ys : List Nat}
    (heq : word v = xs ++ ys) : ∃ u < t.size, word u = xs := by
  induction ys using List.reverseRecOn generalizing v with
  | nil => exact ⟨v, hv, by rw [heq, append_nil]⟩
  | append_singleton ys y ih =>
    have hzero : v ≠ 0 := by
      rintro rfl
      rw [h.root] at heq
      simp at heq
    obtain ⟨u, huv, ch, hword⟩ := h.parent v hv hzero
    rw [hword, ← append_assoc] at heq
    exact ih (huv.trans hv) (append_inj' heq rfl).1

theorem walk_iff (h : t.Labelled word) (hu : u < t.size) (xs : List Nat) (v : Nat) :
    t.walk u xs = some v ↔ v < t.size ∧ word v = word u ++ xs := by
  induction xs generalizing u with
  | nil =>
    rw [walk, Option.some.injEq, append_nil]
    constructor
    · rintro rfl
      exact ⟨hu, rfl⟩
    · rintro ⟨hv, hword⟩
      exact h.injective u hu v hv hword.symm
  | cons ch xs ih =>
    unfold walk
    cases hchild : t.child u ch with
    | none =>
      constructor
      · nofun
      · rintro ⟨hv, hword⟩
        rw [append_cons] at hword
        obtain ⟨w, hw, hwword⟩ := h.exists_of_append hv hword
        have hsome := (h.child_iff u hu ch w).mpr ⟨hw, hwword⟩
        rw [hchild] at hsome
        cases hsome
    | some w =>
      obtain ⟨hw, hwword⟩ := (h.child_iff u hu ch w).mp hchild
      change t.walk w xs = some v ↔ _
      rw [ih hw, hwword, append_assoc]
      rfl

end Labelled

/-! ## Insertion -/

theorem child_addChild {ch : Nat} (hcur : current < t.size) (u c : Nat) :
    (t.addChild current ch).child u c =
      if u = current ∧ c = ch then some t.size else if u = t.size then none else t.child u c := by
  have hne : current ≠ t.size := hcur.ne
  unfold child addChild setChild createNode
  by_cases hu : u = current
  · subst hu
    simp only [Function.update_self, Function.update_of_ne hne, Overlay.lookup_insertKey, true_and, hne, if_false]
  · simp only [Function.update_of_ne hu, hu, false_and, if_false]
    by_cases hnew : u = t.size
    · subst hnew
      simp
    · simp [hnew]

theorem pattern_addChild {ch : Nat} (hcur : current < t.size) (u : Nat) :
    ((t.addChild current ch).nodes u).pattern = if u = t.size then -1 else (t.nodes u).pattern := by
  have hne : current ≠ t.size := hcur.ne
  unfold addChild setChild createNode
  by_cases hu : u = current
  · subst hu
    simp [hne]
  · by_cases hnew : u = t.size
    · subst hnew
      simp [hu]
    · simp [hu, hnew]

theorem Labelled.addChild (h : t.Labelled word) {ch : Nat} (hcur : current < t.size)
    (hnone : t.child current ch = none) :
    (t.addChild current ch).Labelled (update word t.size (word current ++ [ch])) := by
  have hold : ∀ u < t.size, update word t.size (word current ++ [ch]) u = word u :=
    fun u hu => Function.update_of_ne hu.ne _ _
  have hnew : update word t.size (word current ++ [ch]) t.size = word current ++ [ch] :=
    Function.update_self _ _ _
  -- no old node has the new word
  have hfresh : ∀ v < t.size, word v ≠ word current ++ [ch] := by
    intro v hv hword
    have hsome := (h.child_iff current hcur ch v).mpr ⟨hv, hword⟩
    rw [hnone] at hsome
    cases hsome
  have hcases : ∀ u, u < t.size + 1 → u < t.size ∨ u = t.size := fun u hu => by omega
  refine ⟨Nat.succ_pos _, ?_, ?_, ?_, ?_, ?_⟩
  · rw [hold 0 h.size_pos, h.root]
  · intro u hu c v
    rw [child_addChild hcur]
    change _ ↔ v < t.size + 1 ∧ _
    rcases hcases u hu with hu | rfl
    · rw [hold u hu]
      by_cases hhere : u = current ∧ c = ch
      · obtain ⟨rfl, rfl⟩ := hhere
        rw [if_pos ⟨rfl, rfl⟩, Option.some.injEq]
        constructor
        · rintro rfl
          exact ⟨Nat.lt_succ_self _, hnew⟩
        · rintro ⟨hv, hword⟩
          rcases hcases v hv with hv | rfl
          · rw [hold v hv] at hword
            exact absurd hword (hfresh v hv)
          · rfl
      · rw [if_neg hhere, if_neg hu.ne, h.child_iff u hu]
        constructor
        · rintro ⟨hv, hword⟩
          exact ⟨hv.trans (Nat.lt_succ_self _), (hold v hv).trans hword⟩
        · rintro ⟨hv, hword⟩
          rcases hcases v hv with hv | rfl
          · exact ⟨hv, (hold v hv).symm.trans hword⟩
          · rw [hnew] at hword
            obtain ⟨hword, hch⟩ := append_inj' hword rfl
            exact absurd ⟨h.injective u hu current hcur hword.symm, (singleton_inj.mp hch).symm⟩ hhere
    · rw [if_neg (fun hhere => hcur.ne' hhere.1), if_pos rfl, hnew]
      constructor
      · nofun
      · rintro ⟨hv, hword⟩
        rcases hcases v hv with hv | rfl
        · rw [hold v hv] at hword
          obtain ⟨w, hw, hwword⟩ := h.exists_of_append hv hword
          exact absurd hwword (hfresh w hw)
        · rw [hnew] at hword
          have hlen := congrArg List.length hword
          simp at hlen
  · intro u hu v hv hword
    rcases hcases u hu with hu | rfl <;> rcases hcases v hv with hv | rfl
    · rw [hold u hu, hold v hv] at hword
      exact h.injective u hu v hv hword
    · rw [hold u hu, hnew] at hword
      exact absurd hword (hfresh u hu)
    · rw [hold v hv, hnew] at hword
      exact absurd hword.symm (hfresh v hv)
    · rfl
  · intro v hv hzero
    rcases hcases v hv with hv | rfl
    · obtain ⟨u, huv, c, hword⟩ := h.parent v hv hzero
      exact ⟨u, huv, c, by rw [hold v hv, hold u (huv.trans hv), hword]⟩
    · exact ⟨current, hcur, ch, by rw [hnew, hold current hcur]⟩
  · intro u hu
    have hne : current ≠ t.size := hcur.ne
    unfold CommonTrie.addChild setChild createNode
    by_cases hcurrent : u = current
    · subst hcurrent
      simp only [Function.update_self, Function.update_of_ne hne]
      exact (h.sorted u hcur).insertKey ch t.size
    · simp only [Function.update_of_ne hcurrent]
      rcases hcases u hu with hu | rfl
      · rw [Function.update_of_ne hu.ne]
        exact h.sorted u hu
      · rw [Function.update_self]
        exact List.Pairwise.nil

/-- The trie has more nodes, all for prefixes of `w`. -/
structure Grown (t t' : CommonTrie) (word word' : Nat → List Nat) (w : List Nat) : Prop where
  labelled : t'.Labelled word'
  size_le : t.size ≤ t'.size
  old : ∀ u < t.size, word' u = word u
  new : ∀ v < t'.size, v < t.size ∨ word' v <+: w
  patternOld : ∀ u < t.size, (t'.nodes u).pattern = (t.nodes u).pattern
  patternNew : ∀ u < t'.size, ¬u < t.size → (t'.nodes u).pattern = -1
  nPatterns : t'.nPatterns = t.nPatterns

theorem Labelled.insertPath (h : t.Labelled word) (hcur : current < t.size) (xs : List Nat) :
    ∃ word', Grown t (t.insertPath current xs).1 word word' (word current ++ xs) ∧
      (t.insertPath current xs).2 < (t.insertPath current xs).1.size ∧
      word' (t.insertPath current xs).2 = word current ++ xs := by
  induction xs generalizing t word current with
  | nil =>
    refine ⟨word, ⟨h, Nat.le_refl _, fun _ _ => rfl, fun _ hv => .inl hv, fun _ _ => rfl,
      fun _ hu hno => absurd hu hno, rfl⟩, hcur, (append_nil _).symm⟩
  | cons ch xs ih =>
    unfold CommonTrie.insertPath
    cases hchild : t.child current ch with
    | some v =>
      obtain ⟨hv, hword⟩ := (h.child_iff current hcur ch v).mp hchild
      have hrest := ih h hv
      rw [hword, append_assoc] at hrest
      exact hrest
    | none =>
      have hadd := h.addChild hcur hchild
      obtain ⟨word', hgrown, hlast, hlastWord⟩ := ih hadd (Nat.lt_succ_self t.size)
      rw [Function.update_self, append_assoc] at hgrown hlastWord
      refine ⟨word', ⟨hgrown.labelled, (Nat.le_succ _).trans hgrown.size_le, ?_, ?_, ?_, ?_,
        hgrown.nPatterns⟩, hlast, hlastWord⟩
      · intro u hu
        rw [hgrown.old u (hu.trans (Nat.lt_succ_self _)), Function.update_of_ne hu.ne]
      · intro v hv
        rcases hgrown.new v hv with hv | hv
        · rcases Nat.lt_succ_iff_lt_or_eq.mp hv with hv | rfl
          · exact .inl hv
          · rw [hgrown.old _ (Nat.lt_succ_self _), Function.update_self]
            exact .inr ⟨xs, by rw [append_assoc]; rfl⟩
        · exact .inr hv
      · intro u hu
        refine (hgrown.patternOld u (hu.trans (Nat.lt_succ_self _))).trans ?_
        rw [pattern_addChild hcur, if_neg hu.ne]
      · intro u hu hno
        by_cases hsize : u < t.size + 1
        · obtain rfl : u = t.size := by omega
          refine (hgrown.patternOld _ hsize).trans ?_
          rw [pattern_addChild hcur, if_pos rfl]
        · exact hgrown.patternNew u hu hsize

/-- The words of the trie are the prefixes of the patterns, and a pattern's node has its index. -/
structure Holds (t : CommonTrie) (word : Nat → List Nat) (patterns : List (List Nat)) : Prop where
  labelled : t.Labelled word
  nodup : patterns.Nodup
  words : ∀ u < t.size, word u = [] ∨ ∃ p ∈ patterns, word u <+: p
  ends : ∀ p ∈ patterns, ∃ u < t.size, word u = p
  pattern : ∀ u < t.size, (t.nodes u).pattern =
    if word u ∈ patterns then (patterns.idxOf (word u) : Int) else -1
  nPatterns : t.nPatterns = patterns.length

variable {patterns : List (List Nat)}

theorem holds_empty : ({} : CommonTrie).Holds (fun _ => []) [] := by
  refine ⟨⟨Nat.one_pos, rfl, ?_, ?_, ?_, fun _ _ => List.Pairwise.nil⟩, nodup_nil, fun _ _ => .inl rfl, by simp, by simp, rfl⟩
  · intro u hu ch v
    simp [child]
  · intro u hu v hv _
    change u < 1 at hu
    change v < 1 at hv
    omega
  · intro v hv hzero
    change v < 1 at hv
    omega

theorem setPattern_size (t : CommonTrie) (current : Nat) : (t.setPattern current).size = t.size := by
  unfold setPattern
  split <;> rfl

theorem setPattern_child (t : CommonTrie) (current u ch : Nat) :
    (t.setPattern current).child u ch = t.child u ch := by
  unfold setPattern child
  split
  · by_cases hu : u = current
    · subst hu
      simp
    · simp [hu]
  · rfl

theorem Labelled.setPattern (h : t.Labelled word) (current : Nat) : (t.setPattern current).Labelled word := by
  constructor
  case size_pos => exact (setPattern_size t current).symm ▸ h.size_pos
  case root => exact h.root
  case child_iff =>
    intro u hu ch v
    rw [setPattern_size] at hu ⊢
    rw [setPattern_child]
    exact h.child_iff u hu ch v
  case injective =>
    rw [setPattern_size]
    exact h.injective
  case parent =>
    rw [setPattern_size]
    exact h.parent
  case sorted =>
    intro u hu
    rw [setPattern_size] at hu
    unfold CommonTrie.setPattern
    split
    · by_cases hcur : u = current
      · subst hcur
        simpa using h.sorted u hu
      · simpa [hcur] using h.sorted u hu
    · exact h.sorted u hu

/-- The patterns are still at their nodes, and no new node has one. -/
theorem Grown.pattern {t' : CommonTrie} {word' : Nat → List Nat} {w : List Nat} (h : t.Holds word patterns)
    (hgrown : Grown t t' word word' w) {u : Nat} (hu : u < t'.size) : (t'.nodes u).pattern =
      if word' u ∈ patterns then (patterns.idxOf (word' u) : Int) else -1 := by
  by_cases hold : u < t.size
  · rw [hgrown.patternOld u hold, hgrown.old u hold]
    exact h.pattern u hold
  · rw [hgrown.patternNew u hu hold, if_neg]
    intro hmem
    obtain ⟨v, hv, hword⟩ := h.ends _ hmem
    rw [← hgrown.old v hv] at hword
    have heq := hgrown.labelled.injective v (hv.trans_le hgrown.size_le) u hu hword
    exact hold (heq ▸ hv)

/-- A new pattern comes behind the others; a pattern that is there keeps its index. -/
theorem Holds.insert (h : t.Holds word patterns) (w : List Nat) :
    ∃ word' patterns', (t.insert w).1.Holds word' patterns' ∧ patterns <+: patterns' ∧
      (∀ p, p ∈ patterns' ↔ p ∈ patterns ∨ p = w) ∧ (t.insert w).2 = patterns'.idxOf w := by
  obtain ⟨word', hgrown, hlast, hlastWord⟩ := h.labelled.insertPath h.labelled.size_pos w
  rw [h.labelled.root, nil_append] at hgrown hlastWord
  have hinsert : t.insert w = ((t.insertPath 0 w).1.setPattern (t.insertPath 0 w).2,
      (((t.insertPath 0 w).1.setPattern (t.insertPath 0 w).2).nodes (t.insertPath 0 w).2).pattern) := rfl
  generalize (t.insertPath 0 w).1 = t', (t.insertPath 0 w).2 = current at hgrown hlast hlastWord hinsert
  rw [hinsert]
  have hpattern := fun u hu => hgrown.pattern h (u := u) hu
  have hwords : ∀ u < t'.size, word' u = [] ∨ (∃ p ∈ patterns, word' u <+: p) ∨ word' u <+: w := by
    intro u hu
    rcases hgrown.new u hu with hold | hnew
    · rw [hgrown.old u hold]
      exact (h.words u hold).imp_right .inl
    · exact .inr (.inr hnew)
  have hends : ∀ p ∈ patterns, ∃ u < t'.size, word' u = p := by
    intro p hp
    obtain ⟨u, hu, hword⟩ := h.ends p hp
    exact ⟨u, hu.trans_le hgrown.size_le, (hgrown.old u hu).trans hword⟩
  have hhere := hpattern current hlast
  rw [hlastWord] at hhere
  by_cases hmem : w ∈ patterns
  · rw [if_pos hmem] at hhere
    have hsame : t'.setPattern current = t' := if_neg (by rw [hhere]; omega)
    rw [hsame]
    refine ⟨word', patterns, ⟨hgrown.labelled, h.nodup, ?_, hends, hpattern,
      hgrown.nPatterns.trans h.nPatterns⟩, prefix_rfl, ?_, hhere⟩
    · intro u hu
      refine (hwords u hu).imp_right fun hprefix => ?_
      rcases hprefix with hprefix | hprefix
      · exact hprefix
      · exact ⟨w, hmem, hprefix⟩
    · intro p
      refine ⟨.inl, ?_⟩
      rintro (hp | rfl)
      · exact hp
      · exact hmem
  · rw [if_neg hmem] at hhere
    have hset : t'.setPattern current = { t' with
        nodes := update t'.nodes current { t'.nodes current with pattern := t'.nPatterns }
        nPatterns := t'.nPatterns + 1 } := if_pos (by rw [hhere]; omega)
    have hcount : t'.nPatterns = patterns.length := hgrown.nPatterns.trans h.nPatterns
    have hidx : (patterns ++ [w]).idxOf w = patterns.length := by
      rw [idxOf_append_of_notMem hmem]
      simp
    refine ⟨word', patterns ++ [w], ⟨hgrown.labelled.setPattern current, ?_, ?_, ?_, ?_, ?_⟩,
      prefix_append _ _, by simp, ?_⟩
    · refine nodup_append.mpr ⟨h.nodup, by simp, ?_⟩
      rintro p hp q hq rfl
      exact hmem (mem_singleton.mp hq ▸ hp)
    · intro u hu
      rw [setPattern_size] at hu
      refine (hwords u hu).imp_right fun hprefix => ?_
      rcases hprefix with ⟨p, hp, hprefix⟩ | hprefix
      · exact ⟨p, mem_append_left _ hp, hprefix⟩
      · exact ⟨w, by simp, hprefix⟩
    · intro p hp
      rw [setPattern_size]
      rcases List.mem_append.mp hp with hp | hp
      · exact hends p hp
      · exact ⟨current, hlast, hlastWord.trans (mem_singleton.mp hp).symm⟩
    · intro u hu
      rw [setPattern_size] at hu
      rw [hset]
      by_cases hcur : u = current
      · subst hcur
        rw [hlastWord]
        simp [hidx, hcount]
      · have hne : word' u ≠ w := fun heq =>
          hcur (hgrown.labelled.injective u hu current hlast (heq.trans hlastWord.symm))
        simp only [Function.update_of_ne hcur]
        rw [hpattern u hu]
        by_cases hp : word' u ∈ patterns
        · rw [if_pos hp, if_pos (mem_append_left _ hp), idxOf_append_of_mem hp]
        · rw [if_neg hp, if_neg (by simp [hp, hne])]
    · rw [hset, length_append]
      change t'.nPatterns + 1 = _
      rw [hcount]
      rfl
    · rw [hset]
      simp [hidx, hcount]

theorem holds_insertAll (sequences : List (List Nat)) :
    ∃ word patterns, (insertAll sequences).1.Holds word patterns ∧
      (∀ p, p ∈ patterns ↔ p ∈ sequences) ∧
      (insertAll sequences).2 = sequences.map fun w => (patterns.idxOf w : Int) := by
  induction sequences using List.reverseRecOn with
  | nil => exact ⟨_, [], holds_empty, by simp, rfl⟩
  | append_singleton sequences w ih =>
    obtain ⟨word, patterns, hholds, hmem, hids⟩ := ih
    obtain ⟨word', patterns', hholds', hprefix, hmem', hid⟩ := hholds.insert w
    have hstep : insertAll (sequences ++ [w]) = (((insertAll sequences).1.insert w).1,
        (insertAll sequences).2 ++ [((insertAll sequences).1.insert w).2]) := by
      unfold insertAll
      rw [foldl_append]
      rfl
    rw [hstep]
    refine ⟨word', patterns', hholds', ?_, ?_⟩
    · intro p
      rw [hmem', hmem, List.mem_append, mem_singleton]
    · rw [hids, hid, map_append]
      refine congrArg (· ++ _) (map_congr_left fun p hp => ?_)
      obtain ⟨rest, rfl⟩ := hprefix
      rw [idxOf_append_of_mem ((hmem p).mpr hp)]

end CommonTrie

end LlamaCpp
