import LlamaCpp.Common.Trie
import LlamaCpp.Lib.Suffixes
import Mathlib.Data.List.Perm.Subperm

/-!
# The Aho-Corasick automaton

`common_aho_corasick` of trie.cpp.  The constructor goes through the trie breadth first: a
node's failure link is found by following the links of shorter words, which are there already
(`Search.links`).  `ahoCorasick_exact` says what the automaton is in after an input: the node of
the longest suffix that is in the trie, and the longest pattern that ends there.

The loops that follow links take fuel, and so does the search.
-/

namespace LlamaCpp

open List Option

open Function (update)
open Suffixes (IsLongest Fallback PrefixClosed)

/-- `common_aho_corasick` without the alphabet. -/
structure AhoCorasick where
  t : CommonTrie
  /-- Failure links. -/
  fail : Nat → Nat
  /-- States in breadth-first order. -/
  order : List Nat
  /-- `match`: the longest pattern that ends at each state. -/
  matchAt : Nat → Int

namespace AhoCorasick

/-- `while (f && nodes[f].children.find(ch) == nodes[f].children.end()) { f = fail[f]; }` -/
def chase (t : CommonTrie) (fail : Nat → Nat) (ch : Nat) : Nat → Nat → Option Nat
  | 0, _ => none
  | n + 1, f => if f ≠ 0 ∧ t.child f ch = none then chase t fail ch n (fail f) else some f

def link (t : CommonTrie) (fail : Nat → Nat) (u ch v : Nat) : Option Nat :=
  (chase t fail ch t.size (fail u)).map fun f =>
    match t.child f ch with
    | some w => if w ≠ v then w else 0
    | none => 0

def linkChildren (t : CommonTrie) (u : Nat) : List (Nat × Nat) → (Nat → Nat) → Option (Nat → Nat)
  | [], fail => some fail
  | (ch, v) :: children, fail =>
    if u ≠ 0 then
      match link t fail u ch v with
      | none => none
      | some f => linkChildren t u children (update fail v f)
    else linkChildren t u children fail

/-- The loop over the queue. -/
def search (t : CommonTrie) : Nat → List Nat → (Nat → Nat) → List Nat → Option ((Nat → Nat) × List Nat)
  | _, [], fail, order => some (fail, order)
  | 0, _ :: _, _, _ => none
  | n + 1, u :: queue, fail, order =>
    match linkChildren t u (t.nodes u).children fail with
    | none => none
    | some fail =>
      search t n (queue ++ (t.nodes u).children.map Prod.snd) fail (order ++ [u])

/-- The pattern of a state, or that of its failure link. -/
def setMatch (t : CommonTrie) (fail : Nat → Nat) (matchAt : Nat → Int) (u : Nat) : Nat → Int :=
  update matchAt u
    (if 0 ≤ (t.nodes u).pattern then (t.nodes u).pattern
    else if u ≠ 0 then matchAt (fail u) else -1)

def create (t : CommonTrie) : Option AhoCorasick :=
  (search t t.size [0] (fun _ => 0) []).map fun found =>
    { t := t, fail := found.1, order := found.2,
      matchAt := found.2.foldl (setMatch t found.1) fun _ => -1 }

def next (ac : AhoCorasick) (state ch : Nat) : Option Nat :=
  (chase ac.t ac.fail ch ac.t.size state).map fun f => (ac.t.child f ch).getD 0

def matchPattern (ac : AhoCorasick) (s : Nat) : Int := ac.matchAt s

/-- The input goes through `next`. -/
def feed (ac : AhoCorasick) (state : Nat) (input : List Nat) : Option Nat := input.foldlM ac.next state

/-! ## Following the links -/

section Links

variable {t : CommonTrie} {word : Nat → List Nat} {fail : Nat → Nat} {w : List Nat} {ch : Nat}

def InTrie (t : CommonTrie) (word : Nat → List Nat) (w : List Nat) : Prop := ∃ u < t.size, word u = w

theorem prefixClosed (h : t.Labelled word) : PrefixClosed (InTrie t word) := by
  constructor
  · exact ⟨0, h.size_pos, h.root⟩
  · rintro w a ⟨v, hv, hword⟩
    exact h.exists_of_append hv hword

/-- The link of a node goes to the longest other suffix in the trie. -/
structure Linked (t : CommonTrie) (word : Nat → List Nat) (fail : Nat → Nat) (v : Nat) : Prop where
  lt : fail v < t.size
  longest : IsLongest (InTrie t word) (word v).tail (word (fail v))

theorem child_none_iff (h : t.Labelled word) {f : Nat} (hf : f < t.size) :
    t.child f ch = none ↔ ¬InTrie t word (word f ++ [ch]) := by
  constructor
  · rintro hnone ⟨v, hv, hword⟩
    have hsome := (h.child_iff f hf ch v).mpr ⟨hv, hword⟩
    rw [hnone] at hsome
    cases hsome
  · intro hno
    cases hchild : t.child f ch with
    | none => rfl
    | some v => exact absurd ⟨v, (h.child_iff f hf ch v).mp hchild⟩ hno

/-- The loop ends at a node that goes on with the symbol, or at the root. -/
theorem chase_spec (h : t.Labelled word) {n f : Nat} (hf : f < t.size)
    (hlinks : ∀ x < t.size, x ≠ 0 → (word x).length ≤ (word f).length → Linked t word fail x)
    (hback : Fallback (InTrie t word) w ch (word f)) (hn : (word f).length < n) :
    ∃ g, chase t fail ch n f = some g ∧ g < t.size ∧ Fallback (InTrie t word) w ch (word g) ∧
      (g = 0 ∨ t.child g ch ≠ none) := by
  induction n generalizing f with
  | zero => exact absurd hn (Nat.not_lt_zero _)
  | succ n ih =>
    unfold chase
    by_cases hgo : f ≠ 0 ∧ t.child f ch = none
    · rw [if_pos hgo]
      obtain ⟨hzero, hnone⟩ := hgo
      have hne : word f ≠ [] := fun hnil => hzero ((h.word_eq_nil_iff hf).mp hnil)
      obtain ⟨hlt, hlongest⟩ := hlinks f hf hzero (Nat.le_refl _)
      have hless : (word (fail f)).length < (word f).length := by
        have hle := hlongest.suffix.length_le
        rw [length_tail] at hle
        have hpos := length_pos_iff.mpr hne
        omega
      have hfall := hback.fall (prefixClosed h) hne ((child_none_iff h hf).mp hnone) hlongest
      exact ih hlt (fun x hx hxzero hle => hlinks x hx hxzero (hle.trans hless.le)) hfall (by omega)
    · rw [if_neg hgo]
      refine ⟨f, rfl, hf, hback, ?_⟩
      by_contra hno
      rw [not_or, not_not] at hno
      exact hgo hno

/-- The state that a symbol leads to. -/
theorem target_spec (h : t.Labelled word) {g : Nat} (hg : g < t.size)
    (hback : Fallback (InTrie t word) w ch (word g)) (hend : g = 0 ∨ t.child g ch ≠ none) :
    (t.child g ch).getD 0 < t.size ∧ IsLongest (InTrie t word) (w ++ [ch]) (word ((t.child g ch).getD 0)) := by
  cases hchild : t.child g ch with
  | some v =>
    obtain ⟨hv, hword⟩ := (h.child_iff g hg ch v).mp hchild
    refine ⟨hv, ?_⟩
    rw [getD_some, hword]
    exact hback.found ⟨v, hv, hword⟩
  | none =>
    obtain rfl : g = 0 := hend.resolve_right fun hne => hne hchild
    have hno := (child_none_iff h hg).mp hchild
    rw [h.root] at hback hno
    refine ⟨h.size_pos, ?_⟩
    rw [getD_none, h.root]
    exact hback.root (prefixClosed h) hno

/-- From the state of an input to the state of one more symbol. -/
theorem chase_target (h : t.Labelled word) {f : Nat} (hf : f < t.size)
    (hlinks : ∀ x < t.size, x ≠ 0 → (word x).length ≤ (word f).length → Linked t word fail x)
    (hlongest : IsLongest (InTrie t word) w (word f)) (ch : Nat) :
    ∃ g, chase t fail ch t.size f = some g ∧ (t.child g ch).getD 0 < t.size ∧
      IsLongest (InTrie t word) (w ++ [ch]) (word ((t.child g ch).getD 0)) := by
  obtain ⟨g, hchase, hg, hback, hend⟩ := chase_spec h (n := t.size) hf hlinks
    (Fallback.start (prefixClosed h) hlongest ch) ((h.length_le hf).trans_lt hf)
  exact ⟨g, hchase, target_spec h hg hback hend⟩

theorem link_spec (h : t.Labelled word) {u v : Nat} (hu : u < t.size) (hzero : u ≠ 0)
    (hlinks : ∀ x < t.size, x ≠ 0 → (word x).length ≤ (word u).length → Linked t word fail x)
    (hword : word v = word u ++ [ch]) :
    ∃ f, link t fail u ch v = some f ∧ f < t.size ∧ IsLongest (InTrie t word) (word v).tail (word f) := by
  have hne : word u ≠ [] := fun hnil => hzero ((h.word_eq_nil_iff hu).mp hnil)
  obtain ⟨hlt, hlongest⟩ := hlinks u hu hzero (Nat.le_refl _)
  have hless : (word (fail u)).length ≤ (word u).length := by
    have hle := hlongest.suffix.length_le
    rw [length_tail] at hle
    omega
  obtain ⟨g, hchase, htarget, hspec⟩ := chase_target h hlt
    (fun x hx hxzero hle => hlinks x hx hxzero (hle.trans hless)) hlongest ch
  have htail : (word v).tail = (word u).tail ++ [ch] := by rw [hword, tail_append_of_ne_nil hne]
  rw [← htail] at hspec
  refine ⟨(t.child g ch).getD 0, ?_, htarget, hspec⟩
  unfold link
  rw [hchase, map_some]
  cases hchild : t.child g ch with
  | none => rfl
  | some x =>
    have hother : x ≠ v := by
      rintro rfl
      rw [hchild, getD_some] at hspec
      have hle := hspec.suffix.length_le
      rw [length_tail] at hle
      have hpos : 0 < (word x).length := by
        rw [hword, length_append, length_singleton]
        omega
      omega
    simp [hother]

/-- The links of the children of a node, where all shorter words have theirs. -/
theorem linkChildren_spec (h : t.Labelled word) {u : Nat} (hu : u < t.size) (children : List (Nat × Nat))
    (hchildren : ∀ c ∈ children, c.2 < t.size ∧ word c.2 = word u ++ [c.1])
    (hnodup : (children.map Prod.snd).Nodup)
    (hlinks : ∀ x < t.size, x ≠ 0 → (word x).length ≤ (word u).length → Linked t word fail x)
    (hroot : u = 0 → ∀ c ∈ children, fail c.2 = 0) :
    ∃ fail', linkChildren t u children fail = some fail' ∧
      (∀ x, x ∉ children.map Prod.snd → fail' x = fail x) ∧
      ∀ c ∈ children, Linked t word fail' c.2 := by
  induction children generalizing fail with
  | nil => exact ⟨fail, rfl, fun _ _ => rfl, by simp⟩
  | cons c children ih =>
    obtain ⟨ch, v⟩ := c
    obtain ⟨hv, hword⟩ := hchildren (ch, v) mem_cons_self
    obtain ⟨hnotMem, hnodup⟩ := nodup_cons.mp hnodup
    have hrest := fun c hc => hchildren c (mem_cons_of_mem _ hc)
    by_cases hzero : u = 0
    · obtain ⟨fail', hrun, hsame, hlinked⟩ := ih hrest hnodup hlinks
        (fun hzero c hc => hroot hzero c (mem_cons_of_mem _ hc))
      have hfail : fail' v = 0 := (hsame v hnotMem).trans (hroot hzero _ mem_cons_self)
      refine ⟨fail', ?_, ?_, ?_⟩
      · rw [linkChildren, if_neg (not_not.mpr hzero)]
        exact hrun
      · intro x hx
        rw [map_cons, mem_cons, not_or] at hx
        exact hsame x hx.2
      · intro c hc
        rcases mem_cons.mp hc with rfl | hc
        · refine ⟨hfail ▸ h.size_pos, ?_⟩
          rw [hfail, h.root, hword, hzero, h.root]
          exact Suffixes.isLongest_nil (prefixClosed h).nil
        · exact hlinked c hc
    · obtain ⟨f, hlink, hf, hlongest⟩ := link_spec h hu hzero hlinks hword
      have hlinks' : ∀ x < t.size, x ≠ 0 → (word x).length ≤ (word u).length → Linked t word (update fail v f) x := by
        intro x hx hxzero hle
        have hne : x ≠ v := by
          rintro rfl
          rw [hword, length_append, length_singleton] at hle
          omega
        obtain ⟨hlt, hx⟩ := hlinks x hx hxzero hle
        exact ⟨by rwa [Function.update_of_ne hne], by rwa [Function.update_of_ne hne]⟩
      obtain ⟨fail', hrun, hsame, hlinked⟩ := ih hrest hnodup hlinks' fun h => absurd h hzero
      have hfail : fail' v = f := by rw [hsame v hnotMem, Function.update_self]
      refine ⟨fail', ?_, ?_, ?_⟩
      · rw [linkChildren, if_pos hzero, hlink]
        exact hrun
      · intro x hx
        rw [map_cons, mem_cons, not_or] at hx
        rw [hsame x hx.2, Function.update_of_ne hx.1]
      · intro c hc
        rcases mem_cons.mp hc with rfl | hc
        · exact ⟨hfail ▸ hf, hfail ▸ hlongest⟩
        · exact hlinked c hc

end Links

/-! ## The search -/

/-- What holds between two nodes of the queue. -/
structure Search (t : CommonTrie) (word : Nat → List Nat) (fail : Nat → Nat) (order queue : List Nat) :
    Prop where
  nodup : (order ++ queue).Nodup
  lt : ∀ u ∈ order ++ queue, u < t.size
  sorted : (order ++ queue).Pairwise fun u v => (word u).length ≤ (word v).length
  /-- The queue is at one depth and the next. -/
  depths : ∀ u ∈ queue, ∀ v ∈ queue, (word v).length ≤ (word u).length + 1
  root : 0 ∈ order ++ queue
  children : ∀ u ∈ order, ∀ ch v, t.child u ch = some v → v ∈ order ++ queue
  parent : ∀ v ∈ order ++ queue, ∀ u < t.size, ∀ ch, word v = word u ++ [ch] → u ∈ order
  links : ∀ v ∈ order ++ queue, v ≠ 0 → Linked t word fail v
  fresh : ∀ v, v ∉ order ++ queue → fail v = 0

section Run

variable {t : CommonTrie} {word : Nat → List Nat} {fail : Nat → Nat} {order queue : List Nat} {u : Nat}

theorem search_start (h : t.Labelled word) : Search t word (fun _ => 0) [] [0] := by
  constructor
  case nodup => simp
  case lt => simpa using h.size_pos
  case sorted => simp
  case depths => simp
  case root => simp
  case children => simp
  case parent =>
    intro v hv u _ ch hword
    obtain rfl : v = 0 := by simpa using hv
    rw [h.root] at hword
    simp at hword
  case links =>
    intro v hv hzero
    exact absurd (by simpa using hv) hzero
  case fresh => exact fun _ _ => rfl

/-- All words up to the depth of the next node have been found. -/
theorem Search.found (h : t.Labelled word) (hs : Search t word fail order (u :: queue)) {x : Nat}
    (hx : x < t.size) (hle : (word x).length ≤ (word u).length) : x ∈ order ++ u :: queue := by
  induction x using Nat.strong_induction_on with
  | _ x ih =>
    by_cases hzero : x = 0
    · exact hzero ▸ hs.root
    · obtain ⟨y, hyx, ch, hword⟩ := h.parent x hx hzero
      have hlen : (word x).length = (word y).length + 1 := by
        rw [hword, length_append, length_singleton]
      have hy := ih y hyx (hyx.trans hx) (by omega)
      have horder : y ∈ order := by
        rcases List.mem_append.mp hy with hy | hy
        · exact hy
        · rcases mem_cons.mp hy with rfl | hy
          · omega
          · have hsorted := (pairwise_append.mp hs.sorted).2.1
            have hge := (pairwise_cons.mp hsorted).1 y hy
            omega
      exact hs.children y horder ch x ((h.child_iff y (hyx.trans hx) ch x).mpr ⟨hx, hword⟩)

/-- The children of the next node are new. -/
theorem Search.children_fresh (h : t.Labelled word) (hs : Search t word fail order (u :: queue)) {c : Nat × Nat}
    (hc : c ∈ (t.nodes u).children) : c.2 ∉ order ++ u :: queue := by
  intro hmem
  have hu := hs.lt u (by simp)
  obtain ⟨-, hword⟩ := (h.mem_children_iff hu).mp hc
  have horder := hs.parent c.2 hmem u hu c.1 hword
  exact (nodup_append.mp hs.nodup).2.2 u horder u mem_cons_self rfl

theorem children_nodup (h : t.Labelled word) (hu : u < t.size) : ((t.nodes u).children.map Prod.snd).Nodup := by
  refine pairwise_map.mpr ((h.sorted u hu).imp_of_mem ?_)
  intro c c' hc hc' hlt heq
  obtain ⟨-, hword⟩ := (h.mem_children_iff hu).mp hc
  obtain ⟨-, hword'⟩ := (h.mem_children_iff hu).mp hc'
  rw [heq, hword'] at hword
  exact hlt.ne (singleton_inj.mp (append_cancel_left hword)).symm

theorem Search.step (h : t.Labelled word) (hs : Search t word fail order (u :: queue)) :
    ∃ fail', linkChildren t u (t.nodes u).children fail = some fail' ∧
      Search t word fail' (order ++ [u]) (queue ++ (t.nodes u).children.map Prod.snd) := by
  have hu : u < t.size := hs.lt u (by simp)
  have hmem : ∀ c ∈ (t.nodes u).children, c.2 < t.size ∧ word c.2 = word u ++ [c.1] :=
    fun c hc => (h.mem_children_iff hu).mp hc
  have hdepth : ∀ v ∈ (t.nodes u).children.map Prod.snd, (word v).length = (word u).length + 1 := by
    intro v hv
    obtain ⟨c, hc, rfl⟩ := List.mem_map.mp hv
    rw [(hmem c hc).2, length_append, length_singleton]
  have hfresh : ∀ v ∈ (t.nodes u).children.map Prod.snd, v ∉ order ++ u :: queue := by
    intro v hv
    obtain ⟨c, hc, rfl⟩ := List.mem_map.mp hv
    exact hs.children_fresh h hc
  obtain ⟨fail', hrun, hsame, hlinked⟩ := linkChildren_spec h hu _ hmem (children_nodup h hu)
    (fun x hx hzero hle => hs.links x (hs.found h hx hle) hzero)
    (fun _ c hc => hs.fresh c.2 (hs.children_fresh h hc))
  have hall : order ++ [u] ++ (queue ++ (t.nodes u).children.map Prod.snd) =
      order ++ u :: queue ++ (t.nodes u).children.map Prod.snd := by simp
  have hsorted := pairwise_append.mp hs.sorted
  have hhead := (pairwise_cons.mp hsorted.2.1).1
  refine ⟨fail', hrun, ?_⟩
  constructor
  case nodup =>
    rw [hall]
    exact nodup_append.mpr ⟨hs.nodup, children_nodup h hu, by
      rintro x hx y hy rfl
      exact hfresh x hy hx⟩
  case lt =>
    rw [hall]
    intro x hx
    rcases List.mem_append.mp hx with hx | hx
    · exact hs.lt x hx
    · obtain ⟨c, hc, rfl⟩ := List.mem_map.mp hx
      exact (hmem c hc).1
  case sorted =>
    rw [hall]
    refine pairwise_append.mpr ⟨hs.sorted, pairwise_of_forall_mem_list ?_, ?_⟩
    · intro x hx y hy
      rw [hdepth x hx, hdepth y hy]
    · intro x hx y hy
      rw [hdepth y hy]
      rcases List.mem_append.mp hx with hx | hx
      · exact (hsorted.2.2 x hx u mem_cons_self).trans (Nat.le_succ _)
      · exact hs.depths u mem_cons_self x hx
  case depths =>
    intro x hx y hy
    rcases List.mem_append.mp hx with hx | hx <;> rcases List.mem_append.mp hy with hy | hy
    · exact hs.depths x (mem_cons_of_mem _ hx) y (mem_cons_of_mem _ hy)
    · have hle := hhead x hx
      rw [hdepth y hy]
      omega
    · have hle := hs.depths u mem_cons_self y (mem_cons_of_mem _ hy)
      rw [hdepth x hx]
      omega
    · rw [hdepth x hx, hdepth y hy]
      omega
  case root =>
    rw [hall]
    exact mem_append_left _ hs.root
  case children =>
    rw [hall]
    intro x hx ch v hchild
    rcases List.mem_append.mp hx with hx | hx
    · exact mem_append_left _ (hs.children x hx ch v hchild)
    · obtain rfl := mem_singleton.mp hx
      have hc := (h.mem_children_iff hu).mpr ((h.child_iff x hu ch v).mp hchild)
      exact mem_append_right _ (List.mem_map.mpr ⟨(ch, v), hc, rfl⟩)
  case parent =>
    rw [hall]
    intro v hv x hx ch hword
    rcases List.mem_append.mp hv with hv | hv
    · exact mem_append_left _ (hs.parent v hv x hx ch hword)
    · obtain ⟨c, hc, rfl⟩ := List.mem_map.mp hv
      have heq := append_inj' (hword.symm.trans (hmem c hc).2) rfl
      obtain rfl := h.injective x hx u hu heq.1
      simp
  case links =>
    rw [hall]
    intro v hv hzero
    rcases List.mem_append.mp hv with hv | hv
    · obtain ⟨hlt, hlongest⟩ := hs.links v hv hzero
      have heq : fail' v = fail v := hsame v fun hin => hfresh v hin hv
      exact ⟨heq.symm ▸ hlt, heq.symm ▸ hlongest⟩
    · obtain ⟨c, hc, rfl⟩ := List.mem_map.mp hv
      exact hlinked c hc
  case fresh =>
    rw [hall]
    intro v hv
    rw [List.mem_append, not_or] at hv
    rw [hsame v hv.2]
    exact hs.fresh v hv.1

/-- The search ends, and has been at every node. -/
theorem search_spec (h : t.Labelled word) {n : Nat} (hs : Search t word fail order queue)
    (hn : t.size ≤ order.length + n) :
    ∃ fail' order', search t n queue fail order = some (fail', order') ∧ Search t word fail' order' [] := by
  induction n generalizing fail order queue with
  | zero =>
    cases queue with
    | nil => exact ⟨fail, order, rfl, hs⟩
    | cons u queue =>
      -- more nodes than the trie has
      have hsub : (order ++ u :: queue) ⊆ List.range t.size :=
        fun x hx => mem_range.mpr (hs.lt x hx)
      have hlen := (hs.nodup.subperm hsub).length_le
      rw [length_append, length_cons, length_range] at hlen
      omega
  | succ n ih =>
    cases queue with
    | nil => exact ⟨fail, order, rfl, hs⟩
    | cons u queue =>
      obtain ⟨fail', hrun, hs'⟩ := hs.step h
      obtain ⟨fail'', order', hsearch, hs''⟩ := ih hs' (by
        rw [length_append, length_singleton]
        omega)
      refine ⟨fail'', order', ?_, hs''⟩
      rw [search, hrun]
      exact hsearch

theorem Search.complete (h : t.Labelled word) (hs : Search t word fail order []) (hu : u < t.size) : u ∈ order := by
  have hall : ∀ x, x ∈ order ++ [] ↔ x ∈ order := by simp
  induction u using Nat.strong_induction_on with
  | _ u ih =>
    by_cases hzero : u = 0
    · exact (hall u).mp (hzero ▸ hs.root)
    · obtain ⟨y, hyu, ch, hword⟩ := h.parent u hu hzero
      have hy := ih y hyu (hyu.trans hu)
      exact (hall u).mp
        (hs.children y hy ch u ((h.child_iff y (hyu.trans hu) ch u).mpr ⟨hu, hword⟩))

end Run

/-! ## The patterns -/

section Patterns

variable {t : CommonTrie} {word : Nat → List Nat} {patterns : List (List Nat)} {fail : Nat → Nat}
  {order : List Nat} {matchAt : Nat → Int} {u : Nat}

/-- The value is the index of the longest pattern that the word ends with. -/
structure EndsWith (patterns : List (List Nat)) (w : List Nat) (m : Int) : Prop where
  longest : ∀ p, IsLongest (· ∈ patterns) w p → m = patterns.idxOf p
  none : (∀ p, p <:+ w → p ∉ patterns) → m = -1

theorem setMatch_spec (h : t.Holds word patterns) (hu : u < t.size) (hlinked : u ≠ 0 → Linked t word fail u)
    (hfail : u ≠ 0 → EndsWith patterns (word (fail u)) (matchAt (fail u))) :
    EndsWith patterns (word u) (setMatch t fail matchAt u u) := by
  unfold setMatch
  rw [Function.update_self, h.pattern u hu]
  by_cases hmem : word u ∈ patterns
  · rw [if_pos hmem, if_pos (Int.natCast_nonneg _)]
    constructor
    · intro p hp
      rw [(Suffixes.isLongest_self (P := (· ∈ patterns)) hmem).unique hp]
    · intro hno
      exact absurd hmem (hno _ suffix_rfl)
  · rw [if_neg hmem, if_neg (by omega)]
    by_cases hzero : u = 0
    · subst hzero
      rw [if_neg (not_not.mpr rfl), h.labelled.root]
      rw [h.labelled.root] at hmem
      constructor
      · intro p hp
        have hnil := suffix_nil.mp hp.suffix
        exact absurd (hnil ▸ hp.holds) hmem
      · exact fun _ => rfl
    · rw [if_pos hzero]
      have hne : word u ≠ [] := fun hnil => hzero ((h.labelled.word_eq_nil_iff hu).mp hnil)
      obtain ⟨hlt, hlongest⟩ := hlinked hzero
      -- a pattern is in the trie
      have hin : ∀ p, p ∈ patterns → InTrie t word p := fun p hp => h.ends p hp
      have hother := hfail hzero
      constructor
      · intro p hp
        exact hother.longest p ((hlongest.isLongest_iff hin).mp
          ((Suffixes.isLongest_tail_iff hne hmem).mp hp))
      · intro hno
        exact hother.none ((hlongest.forall_not_iff hin).mp
          ((Suffixes.forall_not_tail_iff hne hmem).mp hno))

theorem foldl_setMatch (h : t.Holds word patterns) (hs : Search t word fail order [])
    (hu : u < t.size) (matchAt : Nat → Int) :
    EndsWith patterns (word u) (order.foldl (setMatch t fail) matchAt u) := by
  have hall : ∀ x, x ∈ order ++ [] ↔ x ∈ order := by simp
  have hnodup : order.Nodup := by simpa using hs.nodup
  have hsorted : order.Pairwise fun u v => (word u).length ≤ (word v).length := by simpa using hs.sorted
  have hgo : ∀ before after, order = before ++ after → ∀ u ∈ before,
      EndsWith patterns (word u) (before.foldl (setMatch t fail) matchAt u) := by
    intro before
    induction before using List.reverseRecOn with
    | nil => simp
    | append_singleton before v ih =>
      intro after heq
      have ih := ih (v :: after) (by rw [heq, append_assoc]; rfl)
      have hv : v ∈ order := by
        rw [heq]
        simp
      have hvlt := hs.lt v ((hall v).mpr hv)
      rw [heq, append_assoc] at hnodup hsorted
      have hnew : v ∉ before := fun hin =>
        (nodup_append.mp hnodup).2.2 v hin v mem_cons_self rfl
      intro x hx
      rw [foldl_append, foldl_cons, foldl_nil]
      by_cases hxv : x = v
      · subst hxv
        refine setMatch_spec h hvlt (fun hzero => hs.links x ((hall x).mpr hv) hzero) fun hzero => ?_
        obtain ⟨hlt, hlongest⟩ := hs.links x ((hall x).mpr hv) hzero
        have hne : word x ≠ [] := fun hnil => hzero ((h.labelled.word_eq_nil_iff hvlt).mp hnil)
        have hless : (word (fail x)).length < (word x).length := by
          have hle := hlongest.suffix.length_le
          rw [length_tail] at hle
          have hpos := length_pos_iff.mpr hne
          omega
        -- a shorter word stands further in front
        have hbefore : fail x ∈ before := by
          have hin := hs.complete h.labelled hlt
          rw [heq, append_assoc] at hin
          rcases List.mem_append.mp hin with hin | hin
          · exact hin
          · have hle := (pairwise_append.mp hsorted).2.1
            rcases mem_cons.mp hin with hin | hin
            · rw [hin] at hless
              omega
            · have hge := (pairwise_cons.mp hle).1 _ hin
              omega
        exact ih _ hbefore
      · have hin : x ∈ before := by
          rcases List.mem_append.mp hx with hx | hx
          · exact hx
          · exact absurd (mem_singleton.mp hx) hxv
        unfold setMatch
        rw [Function.update_of_ne hxv]
        exact ih x hin
  exact hgo order [] (append_nil _).symm u (hs.complete h.labelled hu)

end Patterns

/-! ## The automaton on an input -/

/-- The states of an automaton are the nodes of its trie. -/
structure Exact (ac : AhoCorasick) (word : Nat → List Nat) (patterns : List (List Nat)) : Prop where
  holds : ac.t.Holds word patterns
  links : ∀ v < ac.t.size, v ≠ 0 → Linked ac.t word ac.fail v
  ends : ∀ u < ac.t.size, EndsWith patterns (word u) (ac.matchPattern u)

theorem create_exact {t : CommonTrie} {word : Nat → List Nat} {patterns : List (List Nat)}
    (h : t.Holds word patterns) : ∃ ac, create t = some ac ∧ ac.Exact word patterns := by
  obtain ⟨fail, order, hrun, hs⟩ := search_spec h.labelled (n := t.size) (search_start h.labelled)
    (Nat.le_add_left _ _)
  refine ⟨{ t := t, fail := fail, order := order, matchAt := order.foldl (setMatch t fail) fun _ => -1 },
    ?_, ⟨h, ?_, ?_⟩⟩
  · unfold create
    rw [hrun]
    rfl
  · intro v hv hzero
    exact hs.links v (mem_append_left _ (hs.complete h.labelled hv)) hzero
  · exact fun u hu => foldl_setMatch h hs hu _

variable {ac : AhoCorasick} {word : Nat → List Nat} {patterns : List (List Nat)}

/-- The state of an input is its longest suffix in the trie. -/
theorem Exact.feed (h : ac.Exact word patterns) (input : List Nat) :
    ∃ state, ac.feed 0 input = some state ∧ state < ac.t.size ∧ IsLongest (InTrie ac.t word) input (word state) := by
  induction input using List.reverseRecOn with
  | nil =>
    refine ⟨0, rfl, h.holds.labelled.size_pos, ?_⟩
    rw [h.holds.labelled.root]
    exact Suffixes.isLongest_nil (prefixClosed h.holds.labelled).nil
  | append_singleton input ch ih =>
    obtain ⟨state, hrun, hstate, hlongest⟩ := ih
    obtain ⟨g, hchase, htarget, hspec⟩ := chase_target h.holds.labelled hstate
      (fun x hx hzero _ => h.links x hx hzero) hlongest ch
    refine ⟨_, ?_, htarget, hspec⟩
    unfold AhoCorasick.feed at hrun ⊢
    rw [foldlM_append, hrun]
    simp [next, hchase]

/-- Behind an input that ends with no pattern there is no match. -/
theorem Exact.matchPattern_eq (h : ac.Exact word patterns) {input : List Nat} {state : Nat}
    (hrun : ac.feed 0 input = some state) (hno : ∀ w ∈ patterns, ¬w <:+ input) :
    ac.matchPattern state = -1 := by
  obtain ⟨state', hrun', hstate, hlongest⟩ := h.feed input
  obtain rfl := some.inj (hrun.symm.trans hrun')
  refine (h.ends state hstate).none ((hlongest.forall_not_iff h.holds.ends).mp ?_)
  exact fun w hsuffix hw => hno w hw hsuffix

theorem feed_concat (ac : AhoCorasick) (state : Nat) (input : List Nat) (ch : Nat) :
    ac.feed state (input ++ [ch]) = (ac.feed state input).bind fun s => ac.next s ch := by
  unfold AhoCorasick.feed
  rw [foldlM_append]
  simp

/-- A prefix of one of the sequences, or nothing. -/
def IsPrefixOf (sequences : List (List Nat)) (w : List Nat) : Prop :=
  w = [] ∨ ∃ p ∈ sequences, w <+: p

/-- Behind an input the automaton is at the node of its longest suffix that is a prefix of an inserted
sequence, and the pattern there is what the insertion of the longest sequence that the input ends with
returned. -/
theorem ahoCorasick_exact (sequences : List (List Nat)) (input : List Nat) :
    ∃ ac, create (CommonTrie.insertAll sequences).1 = some ac ∧
      ∃ state, ac.feed 0 input = some state ∧
        (∃ w, IsLongest (IsPrefixOf sequences) input w ∧ ac.t.walk 0 w = some state) ∧
        (∀ (k : Nat) (w : List Nat), sequences[k]? = some w → IsLongest (· ∈ sequences) input w →
          (CommonTrie.insertAll sequences).2[k]? = some (ac.matchPattern state)) ∧
        ((∀ w ∈ sequences, ¬w <:+ input) → ac.matchPattern state = -1) := by
  obtain ⟨word, patterns, hinserted, hmem, hids⟩ := CommonTrie.holds_insertAll sequences
  obtain ⟨ac, hcreate, hexact⟩ := create_exact hinserted
  have hholds := hexact.holds
  obtain ⟨state, hrun, hstate, hlongest⟩ := hexact.feed input
  have hin : ∀ w, InTrie ac.t word w ↔ IsPrefixOf sequences w := by
    intro w
    constructor
    · rintro ⟨u, hu, rfl⟩
      refine (hholds.words u hu).imp_right ?_
      rintro ⟨p, hp, hprefix⟩
      exact ⟨p, (hmem p).mp hp, hprefix⟩
    · rintro (rfl | ⟨p, hp, rest, rfl⟩)
      · exact ⟨0, hholds.labelled.size_pos, hholds.labelled.root⟩
      · obtain ⟨v, hv, hword⟩ := hholds.ends _ ((hmem _).mpr hp)
        exact hholds.labelled.exists_of_append hv hword
  have hpattern : ∀ w, w ∈ patterns → InTrie ac.t word w := fun w hw => hholds.ends w hw
  have hends := hexact.ends state hstate
  refine ⟨ac, hcreate, state, hrun, ⟨word state, ?_, ?_⟩, ?_, ?_⟩
  · exact ⟨hlongest.suffix, (hin _).mp hlongest.holds,
      fun x hx hPx => hlongest.longest x hx ((hin x).mpr hPx)⟩
  · rw [hholds.labelled.walk_iff hholds.labelled.size_pos, hholds.labelled.root]
    exact ⟨hstate, rfl⟩
  · intro k w hk hw
    have hw : IsLongest (· ∈ patterns) input w :=
      ⟨hw.suffix, (hmem w).mpr hw.holds, fun x hx hPx => hw.longest x hx ((hmem x).mp hPx)⟩
    rw [hids, getElem?_map, hk, hends.longest w ((hlongest.isLongest_iff hpattern).mp hw)]
    rfl
  · exact fun hno => hexact.matchPattern_eq hrun fun w hw => hno w ((hmem w).mp hw)

end AhoCorasick

end LlamaCpp
