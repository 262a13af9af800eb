import LlamaCpp.Batch.Split

/-!
# What one split does

`Picks a Clean p` is the effect of one split on the allocator `a`: the chosen
tokens are in range and not empty, `n_used` grows by their number, and for the
sequence sets that are `Clean` the chosen tokens were unused, exactly they become
used, and they come in batch order.  For `split_simple` and `split_seq` every set
is clean.  For `split_equal` a set is clean when its used tokens are the first ones
of the set (`Down`) and it has been gathered once: the empty set overlaps no set,
so it can be gathered twice, and then its tokens are taken twice.

The three picks satisfy it: `picks_simple`, `picks_seq`, `picks_equal`.
-/

namespace LlamaCpp.LlamaBatchAllocr

/-! ## Marking -/

theorem takeTokens_eq (a : LlamaBatchAllocr) (is : List Nat) :
    a.takeTokens is = { a with used := fun i => a.used i || decide (i ∈ is), nUsed := a.nUsed + is.length } := by
  unfold takeTokens
  induction is generalizing a with
  | nil => simp
  | cons j is ih =>
    rw [List.foldl_cons, ih]
    simp only [takeToken, List.mem_cons, List.length_cons, mk.injEq, true_and]
    refine ⟨by omega, funext fun i => ?_⟩
    by_cases hij : i = j <;> simp [hij]

theorem putBackAll_eq (a : LlamaBatchAllocr) (is : List Nat) :
    a.putBackAll is = { a with used := fun i => a.used i && !decide (i ∈ is), nUsed := a.nUsed - is.length } := by
  unfold putBackAll
  induction is generalizing a with
  | nil => simp
  | cons j is ih =>
    rw [List.foldl_cons, ih]
    simp only [putBack, List.mem_cons, List.length_cons, mk.injEq, true_and]
    refine ⟨by omega, funext fun i => ?_⟩
    by_cases hij : i = j <;> simp [hij]

theorem takeToken_takeTokens (a : LlamaBatchAllocr) (i : Nat) (is : List Nat) :
    (a.takeToken i).takeTokens is = a.takeTokens (i :: is) := rfl

/-! ## The effect of a split -/

/-- The effect of one split on the tokens of the clean sets. -/
structure Picks (a : LlamaBatchAllocr) (Clean : Finset SeqId → Prop) (p : Picked) : Prop where
  frame : ∃ used nUsed, p.allocr = { a with used := used, nUsed := nUsed }
  ne : p.idxs ≠ []
  nSeqs_ne : p.nSeqs ≠ 0
  nUsed : p.allocr.nUsed = a.nUsed + p.idxs.length
  lt : ∀ i ∈ p.idxs, i < a.batch.nTokens
  fresh : ∀ i ∈ p.idxs, Clean (a.batch.seqSet i) → a.used i = false
  used : ∀ i, Clean (a.batch.seqSet i) → p.allocr.used i = (a.used i || decide (i ∈ p.idxs))
  order : p.idxs.Pairwise fun i j => Clean (a.batch.seqSet i) →
    (a.batch.seqSet i = a.batch.seqSet j ∨ ¬Disjoint (a.batch.seqSet i) (a.batch.seqSet j)) → i < j

/-- A split that takes unused tokens in batch order. -/
theorem Picks.of_take {a : LlamaBatchAllocr} {is : List Nat} {nSeqs : Nat} {equalSeqs : Bool}
    (Clean : Finset SeqId → Prop) (hne : is ≠ []) (hn : nSeqs ≠ 0)
    (hlt : ∀ i ∈ is, i < a.batch.nTokens) (hfresh : ∀ i ∈ is, a.used i = false)
    (hsorted : is.Pairwise (· < ·)) : Picks a Clean ⟨is, nSeqs, equalSeqs, a.takeTokens is⟩ where
  frame := ⟨_, _, takeTokens_eq a is⟩
  ne := hne
  nSeqs_ne := hn
  nUsed := by rw [takeTokens_eq]
  lt := hlt
  fresh := fun i hi _ => hfresh i hi
  used := fun i _ => by rw [takeTokens_eq]
  order := hsorted.imp fun h _ _ => h

theorem firstUnused_eq_some {a : LlamaBatchAllocr} {i : Nat} (h : a.firstUnused = some i) :
    i < a.batch.nTokens ∧ a.used i = false ∧ ∀ j < i, a.used j = true := by
  have hi := List.find?_some h
  have hmem := List.mem_range.mp (List.mem_of_find?_eq_some h)
  refine ⟨hmem, by simpa using hi, fun j hj => ?_⟩
  rw [firstUnused, List.find?_range_eq_some] at h
  simpa using h.2.2 j hj

theorem firstUnused_eq_none {a : LlamaBatchAllocr} (h : a.firstUnused = none) :
    ∀ i < a.batch.nTokens, a.used i = true := by
  intro i hi
  simpa using List.find?_eq_none.mp h i (List.mem_range.mpr hi)

/-! ## `split_simple` -/

theorem simpleLoop_eq (nUbatch : Nat) : ∀ (is idxs : List Nat) (a : LlamaBatchAllocr),
    ∃ m ≤ is.length, simpleLoop nUbatch is idxs a = (idxs ++ is.take m, a.takeTokens (is.take m))
  | [], idxs, a => ⟨0, le_rfl, by simp [simpleLoop, takeTokens]⟩
  | i :: is, idxs, a => by
      by_cases hfull : nUbatch ≤ idxs.length
      · exact ⟨0, Nat.zero_le _, by simp [simpleLoop, hfull, takeTokens]⟩
      · obtain ⟨m, hle, hm⟩ := simpleLoop_eq nUbatch is (idxs ++ [i]) (a.takeToken i)
        refine ⟨m + 1, Nat.succ_le_succ hle, ?_⟩
        rw [simpleLoop, if_neg hfull, hm]
        simp [takeTokens]

theorem indicesAfter_sorted (a : LlamaBatchAllocr) (i : Nat) : (i :: a.indicesAfter i).Pairwise (· < ·) := by
  refine List.pairwise_cons.mpr ⟨fun j hj => ?_, List.pairwise_lt_range' ..⟩
  have := List.mem_range'.mp hj
  omega

theorem lt_of_mem_indicesAfter {a : LlamaBatchAllocr} {i j : Nat} (h : j ∈ a.indicesAfter i) :
    i < j ∧ j < a.batch.nTokens := by
  have := List.mem_range'.mp h
  omega

def Front (a : LlamaBatchAllocr) : Prop :=
  ∀ i j, i < j → a.used j = true → a.used i = true

/-- With the used tokens at the front, `split_simple` takes the next ones. -/
theorem picks_simple {a : LlamaBatchAllocr} (nUbatch : Nat) (Clean : Finset SeqId → Prop)
    (hfront : Front a) :
    (a.pickSimple nUbatch = a.pickedNone ∧ ∀ i < a.batch.nTokens, a.used i = true) ∨
      Picks a Clean (a.pickSimple nUbatch) ∧ Front (a.pickSimple nUbatch).allocr := by
  unfold pickSimple
  cases hfirst : a.firstUnused with
  | none => exact .inl ⟨rfl, firstUnused_eq_none hfirst⟩
  | some i =>
    right
    obtain ⟨hi, hui, hbefore⟩ := firstUnused_eq_some hfirst
    have hunused : ∀ j, i ≤ j → a.used j = false := by
      intro j hij
      rcases Nat.eq_or_lt_of_le hij with rfl | hlt
      · exact hui
      · by_contra hused
        rw [hfront i j hlt (by simpa using hused)] at hui
        cases hui
    obtain ⟨m, hle, hm⟩ := simpleLoop_eq nUbatch (a.indicesAfter i) [i] (a.takeToken i)
    have hle : m ≤ a.batch.nTokens - (i + 1) := by simpa [indicesAfter] using hle
    have hmem : ∀ j, j ∈ i :: (a.indicesAfter i).take m ↔ i ≤ j ∧ j < i + 1 + m := by
      intro j
      rw [indicesAfter, List.take_range'_of_length_ge hle, List.mem_cons, List.mem_range'_1]
      omega
    have hsub : (i :: (a.indicesAfter i).take m).Sublist (i :: a.indicesAfter i) :=
      (List.take_sublist ..).cons_cons i
    dsimp only
    rw [hm, takeToken_takeTokens, List.singleton_append]
    refine ⟨Picks.of_take Clean (by simp) (by simp) (fun j hj => ?_)
      (fun j hj => hunused j ((hmem j).mp hj).1) ((indicesAfter_sorted a i).sublist hsub), ?_⟩
    · have := (hmem j).mp hj
      omega
    · intro j k hjk hk
      simp only [takeTokens_eq, Bool.or_eq_true, decide_eq_true_eq, hmem] at hk ⊢
      by_cases hij : i ≤ j
      · rw [hunused k (by omega)] at hk
        simp at hk
        omega
      · exact .inl (hbefore j (by omega))

/-! ## `split_seq` -/

theorem seqLoop_eq (nUbatch : Nat) : ∀ (is : List Nat) (curSeqSet : Finset SeqId)
    (idxs : List Nat) (a : LlamaBatchAllocr), is.Nodup → ∃ taken, taken.Sublist is ∧
      (∀ i ∈ taken, a.used i = false) ∧
      seqLoop nUbatch is curSeqSet idxs a = (idxs ++ taken, a.takeTokens taken)
  | [], _, idxs, a, _ => ⟨[], .slnil, by simp, by simp [seqLoop, takeTokens]⟩
  | i :: is, curSeqSet, idxs, a, hnd => by
      obtain ⟨hi, hnd⟩ := List.nodup_cons.mp hnd
      rw [seqLoop]
      split
      · exact ⟨[], List.nil_sublist _, by simp, by simp [takeTokens]⟩
      split
      · obtain ⟨taken, hsub, hfresh, heq⟩ := seqLoop_eq nUbatch is curSeqSet idxs a hnd
        exact ⟨taken, hsub.cons i, hfresh, heq⟩
      next hskip =>
        obtain ⟨taken, hsub, hfresh, heq⟩ :=
          seqLoop_eq nUbatch is (a.batch.seqSet i) (idxs ++ [i]) (a.takeToken i) hnd
        refine ⟨i :: taken, hsub.cons_cons i, fun j hj => ?_, ?_⟩
        · rcases List.mem_cons.mp hj with rfl | hj
          · simpa using (not_or.mp hskip).1
          · have hji : j ≠ i := fun h => hi (h ▸ hsub.subset hj)
            simpa [takeToken, hji] using hfresh j hj
        · rw [heq, takeToken_takeTokens, List.append_assoc, List.singleton_append]

theorem picks_seq (a : LlamaBatchAllocr) (nUbatch : Nat) (Clean : Finset SeqId → Prop) :
    (a.pickSeq nUbatch = a.pickedNone ∧ ∀ i < a.batch.nTokens, a.used i = true) ∨
      Picks a Clean (a.pickSeq nUbatch) := by
  unfold pickSeq
  cases hfirst : a.firstUnused with
  | none => exact .inl ⟨rfl, firstUnused_eq_none hfirst⟩
  | some i =>
    right
    obtain ⟨hi, hui, -⟩ := firstUnused_eq_some hfirst
    have hsorted := indicesAfter_sorted a i
    obtain ⟨taken, hsub, hfresh, heq⟩ := seqLoop_eq nUbatch (a.indicesAfter i)
      (a.batch.seqSet i) [i] (a.takeToken i) (List.pairwise_cons.mp hsorted).2.nodup
    dsimp only
    rw [heq, takeToken_takeTokens]
    refine Picks.of_take Clean (by simp) (by simp) (fun j hj => ?_) (fun j hj => ?_)
      (hsorted.sublist (hsub.cons_cons i))
    · rcases List.mem_cons.mp hj with rfl | hj
      · exact hi
      · exact (lt_of_mem_indicesAfter (hsub.subset hj)).2
    · rcases List.mem_cons.mp hj with rfl | hj
      · exact hui
      · have hij := (lt_of_mem_indicesAfter (hsub.subset hj)).1
        simpa [takeToken, (Nat.ne_of_lt hij).symm] using hfresh j hj

/-! ## Gathering sequence sets -/

/-- The sets gathered so far stay. -/
theorem gatherLoop_keeps (a : LlamaBatchAllocr) (nUbatch : Nat) (sequential : Bool) :
    ∀ (is : List Nat) (cur : List (Finset SeqId)) (last : Int), cur <+: gatherLoop a nUbatch sequential is cur last
  | [], _, _ => List.prefix_rfl
  | i :: is, cur, last => by
      rw [gatherLoop]
      split
      · exact gatherLoop_keeps a nUbatch sequential is cur last
      split
      · dsimp only
        split
        · exact List.prefix_append ..
        · exact (List.prefix_append ..).trans (gatherLoop_keeps a nUbatch sequential is _ _)
      · exact gatherLoop_keeps a nUbatch sequential is cur last

/-- The gathered sets are disjoint, each belongs to an unused token, and there is
one as long as an unused token exists. -/
theorem gatherLoop_spec (a : LlamaBatchAllocr) (nUbatch : Nat) (sequential : Bool) :
    ∀ (is : List Nat) (cur : List (Finset SeqId)) (last : Int), cur.Pairwise Disjoint →
      (gatherLoop a nUbatch sequential is cur last).Pairwise Disjoint ∧
      (∀ S ∈ gatherLoop a nUbatch sequential is cur last,
        S ∈ cur ∨ ∃ i ∈ is, a.used i = false ∧ a.batch.seqSet i = S) ∧
      (gatherLoop a nUbatch sequential is cur last = [] → ∀ i ∈ is, a.used i = true)
  | [], cur, _, hcur => ⟨hcur, fun S hS => .inl hS, by simp⟩
  | i :: is, cur, last, hcur => by
      have hpre := gatherLoop_keeps a nUbatch sequential (i :: is) cur last
      rw [gatherLoop] at hpre ⊢
      by_cases hused : a.used i = true
      · rw [if_pos hused]
        obtain ⟨hdisj, hmem, hnil⟩ := gatherLoop_spec a nUbatch sequential is cur last hcur
        refine ⟨hdisj, fun S hS => (hmem S hS).imp_right ?_, fun h j hj => ?_⟩
        · rintro ⟨j, hj, hS⟩
          exact ⟨j, List.mem_cons_of_mem i hj, hS⟩
        · rcases List.mem_cons.mp hj with rfl | hj
          · exact hused
          · exact hnil h j hj
      rw [if_neg hused] at hpre ⊢
      have hui : a.used i = false := by simpa using hused
      split
      next hadd =>
        have hcur' : (cur ++ [a.batch.seqSet i]).Pairwise Disjoint := by
          refine List.pairwise_append.mpr ⟨hcur, List.pairwise_singleton _ _, fun S hS T hT => ?_⟩
          rw [List.mem_singleton.mp hT, Finset.disjoint_iff_inter_eq_empty]
          simpa using List.all_eq_true.mp hadd.1 S hS
        have hmem' : ∀ S ∈ cur ++ [a.batch.seqSet i],
            S ∈ cur ∨ ∃ j ∈ i :: is, a.used j = false ∧ a.batch.seqSet j = S := by
          intro S hS
          rcases List.mem_append.mp hS with hS | hS
          · exact .inl hS
          · exact .inr ⟨i, List.mem_cons_self, hui, (List.mem_singleton.mp hS).symm⟩
        have hne : ∀ R : List (Finset SeqId), cur ++ [a.batch.seqSet i] <+: R → R ≠ [] := by
          rintro R hR rfl
          simp at hR
        dsimp only
        split
        · exact ⟨hcur', hmem', fun h => absurd h (hne _ List.prefix_rfl)⟩
        · obtain ⟨hdisj, hmem, -⟩ := gatherLoop_spec a nUbatch sequential is
            (cur ++ [a.batch.seqSet i]) (a.batch.seqId i 0) hcur'
          refine ⟨hdisj, fun S hS => ?_, fun h => absurd h (hne _ (gatherLoop_keeps ..))⟩
          rcases hmem S hS with hS | ⟨j, hj, hS⟩
          · exact hmem' S hS
          · exact .inr ⟨j, List.mem_cons_of_mem i hj, hS⟩
      next hskip =>
        obtain ⟨hdisj, hmem, -⟩ := gatherLoop_spec a nUbatch sequential is cur last hcur
        refine ⟨hdisj, fun S hS => (hmem S hS).imp_right ?_, fun h => ?_⟩
        · rintro ⟨j, hj, hS⟩
          exact ⟨j, List.mem_cons_of_mem i hj, hS⟩
        · -- an unused token is skipped only for a set gathered before it
          rw [if_neg hskip, h, List.prefix_nil] at hpre
          simp [hpre] at hskip

section Gathered

variable (a : LlamaBatchAllocr) (nUbatch : Nat) (sequential : Bool)

theorem gatherSeqSets_disjoint : (a.gatherSeqSets nUbatch sequential).Pairwise Disjoint :=
  (gatherLoop_spec a nUbatch sequential _ [] (-1) .nil).1

theorem exists_unused_of_mem_gatherSeqSets {S : Finset SeqId}
    (hS : S ∈ a.gatherSeqSets nUbatch sequential) :
    ∃ i < a.batch.nTokens, a.used i = false ∧ a.batch.seqSet i = S := by
  obtain ⟨-, hmem, -⟩ := gatherLoop_spec a nUbatch sequential (List.range a.batch.nTokens) []
    (-1) .nil
  rcases hmem S hS with hS | ⟨i, hi, hS⟩
  · simp at hS
  · exact ⟨i, List.mem_range.mp hi, hS⟩

theorem used_of_gatherSeqSets_eq_nil (h : a.gatherSeqSets nUbatch sequential = []) :
    ∀ i < a.batch.nTokens, a.used i = true := fun i hi =>
  (gatherLoop_spec a nUbatch sequential _ [] (-1) .nil).2.2 h i (List.mem_range.mpr hi)

end Gathered

/-! ## Cursors -/

/-- The used tokens of the set `S` are its first ones. -/
def Down (a : LlamaBatchAllocr) (S : Finset SeqId) : Prop :=
  ∀ i j, i < j → j < a.batch.nTokens → a.batch.seqSet i = S → a.batch.seqSet j = S →
    a.used j = true → a.used i = true

/-- A cursor that started at the first unused token of its set and has taken what
lies between there and where it stands. -/
structure CursorOk (a : LlamaBatchAllocr) (c : SeqCursor) : Prop where
  list_eq : c.list = a.batch.seqSetMap c.seqSet
  start_le : (a.cursorOf c.seqSet).cur ≤ c.cur
  cur_le : c.cur ≤ c.list.length
  idxs_eq : c.idxs = (c.list.drop (a.cursorOf c.seqSet).cur).take
    (c.cur - (a.cursorOf c.seqSet).cur)

theorem mem_seqSetMap (batch : FilledBatch) (S : Finset SeqId) (i : Nat) :
    i ∈ batch.seqSetMap S ↔ i < batch.nTokens ∧ batch.seqSet i = S := by
  simp [FilledBatch.seqSetMap]

theorem seqSetMap_sorted (batch : FilledBatch) (S : Finset SeqId) : (batch.seqSetMap S).Pairwise (· < ·) :=
  List.pairwise_lt_range.filter _

theorem cursorOf_ok (a : LlamaBatchAllocr) (S : Finset SeqId) : CursorOk a (a.cursorOf S) where
  list_eq := rfl
  start_le := le_rfl
  cur_le := List.findIdx_le_length
  idxs_eq := by simp [cursorOf]

namespace CursorOk

variable {a : LlamaBatchAllocr} {c : SeqCursor} (h : CursorOk a c) {i : Nat}

include h

theorem length_idxs : c.idxs.length = c.cur - (a.cursorOf c.seqSet).cur := by
  have := h.cur_le
  rw [h.idxs_eq, List.length_take, List.length_drop]
  omega

/-- The tokens taken are those under the cursor so far. -/
theorem mem_idxs (i : Nat) : i ∈ c.idxs ↔ ∃ k, (a.cursorOf c.seqSet).cur ≤ k ∧ k < c.cur ∧ c.list[k]? = some i := by
  rw [h.idxs_eq, List.mem_iff_getElem?]
  constructor
  · rintro ⟨k, hk⟩
    rw [List.getElem?_take] at hk
    split at hk
    · rw [List.getElem?_drop] at hk
      exact ⟨_, Nat.le_add_right .., by omega, hk⟩
    · cases hk
  · rintro ⟨k, hstart, hcur, hk⟩
    refine ⟨k - (a.cursorOf c.seqSet).cur, ?_⟩
    rw [List.getElem?_take, if_pos (by omega), List.getElem?_drop, Nat.add_sub_cancel' hstart, hk]

theorem mem_list (hi : i ∈ c.idxs) : i < a.batch.nTokens ∧ a.batch.seqSet i = c.seqSet := by
  rw [h.idxs_eq] at hi
  rw [← mem_seqSetMap, ← h.list_eq]
  exact List.mem_of_mem_drop (List.mem_of_mem_take hi)

theorem idxs_sorted : c.idxs.Pairwise (· < ·) := by
  rw [h.idxs_eq, h.list_eq]
  exact (seqSetMap_sorted ..).sublist ((List.take_sublist ..).trans (List.drop_sublist ..))

/-- The tokens before the start of the cursor are used. -/
theorem used_of_lt_start {k : Nat} (hk : k < (a.cursorOf c.seqSet).cur) (hi : c.list[k]? = some i) :
    a.used i = true := by
  obtain ⟨hlen, hget⟩ := List.getElem?_eq_some_iff.mp hi
  have hnot := List.not_of_lt_findIdx (show k < (a.batch.seqSetMap c.seqSet).findIdx _ from hk)
  simpa [← hget, h.list_eq] using hnot

/-- The tokens taken were unused. -/
theorem fresh (hdown : Down a c.seqSet) (hi : i ∈ c.idxs) : a.used i = false := by
  obtain ⟨hlt, hset⟩ := h.mem_list hi
  obtain ⟨k, hstart, hcur, hk⟩ := (h.mem_idxs i).mp hi
  obtain ⟨hlen, hget⟩ := List.getElem?_eq_some_iff.mp hk
  -- the token at the start of the cursor is unused
  have hs : (a.cursorOf c.seqSet).cur < (a.batch.seqSetMap c.seqSet).length := by
    rw [← h.list_eq]
    omega
  have hfirst : a.used (a.batch.seqSetMap c.seqSet)[(a.cursorOf c.seqSet).cur] = false := by
    have hget := List.findIdx_getElem (w := hs)
    rw [Bool.not_eq_true'] at hget
    exact hget
  by_contra hused
  have hused : a.used i = true := by simpa using hused
  rcases Nat.eq_or_lt_of_le hstart with heq | hlt'
  · simp only [h.list_eq] at hget
    subst heq
    rw [hget, hused] at hfirst
    cases hfirst
  · have hsorted := List.pairwise_iff_getElem.mp (seqSetMap_sorted a.batch c.seqSet)
    have hk' : k < (a.batch.seqSetMap c.seqSet).length := h.list_eq ▸ hlen
    have hbefore := hsorted _ k hs hk' hlt'
    simp only [h.list_eq] at hget
    rw [hget] at hbefore
    have hmem := (mem_seqSetMap a.batch c.seqSet _).mp (List.getElem_mem hs)
    rw [hdown _ i hbefore hlt hmem.2 hset hused] at hfirst
    cases hfirst

/-- Every token of the set before a taken one is used or taken too. -/
theorem used_or_mem {j : Nat} (hj : j ∈ c.idxs) (hij : i < j) (hset : a.batch.seqSet i = c.seqSet) :
    a.used i = true ∨ i ∈ c.idxs := by
  obtain ⟨hlt, -⟩ := h.mem_list hj
  obtain ⟨k, hstart, hcur, hk⟩ := (h.mem_idxs j).mp hj
  have hi : i ∈ c.list := by
    rw [h.list_eq, mem_seqSetMap]
    exact ⟨hij.trans hlt, hset⟩
  obtain ⟨m, hm⟩ := List.mem_iff_getElem?.mp hi
  by_cases hms : m < (a.cursorOf c.seqSet).cur
  · exact .inl (h.used_of_lt_start hms hm)
  · right
    obtain ⟨hmlen, hmget⟩ := List.getElem?_eq_some_iff.mp hm
    obtain ⟨hklen, hkget⟩ := List.getElem?_eq_some_iff.mp hk
    have hmk : m < k := by
      by_contra hle
      have hsorted : c.list.Pairwise (· < ·) := h.list_eq ▸ seqSetMap_sorted ..
      rcases Nat.eq_or_lt_of_le (not_lt.mp hle) with heq | hlt'
      · subst heq
        omega
      · have := List.pairwise_iff_getElem.mp hsorted k m hklen hmlen hlt'
        omega
    exact (h.mem_idxs i).mpr ⟨m, by omega, by omega, hm⟩

theorem advance (hcur : c.cur < c.list.length) : CursorOk a c.advance where
  list_eq := h.list_eq
  start_le := Nat.le_succ_of_le h.start_le
  cur_le := hcur
  idxs_eq := by
    have hstart := h.start_le
    simp only [SeqCursor.advance, SeqCursor.next]
    rw [h.idxs_eq, Nat.sub_add_comm hstart, List.take_add_one, List.getElem?_drop, Nat.add_sub_cancel' hstart]
    simp [hcur]

end CursorOk

/-! ## The rounds -/

/-- `a'` is `a` with exactly the tokens of the cursors marked. -/
def Marked (a : LlamaBatchAllocr) (cs : List SeqCursor) (a' : LlamaBatchAllocr) : Prop :=
  a' = { a with
    used := fun i => a.used i || decide (i ∈ cs.flatMap SeqCursor.idxs)
    nUsed := a.nUsed + (cs.flatMap SeqCursor.idxs).length }

theorem length_flatMap_advance (cs : List SeqCursor) :
    ((cs.map SeqCursor.advance).flatMap SeqCursor.idxs).length = (cs.flatMap SeqCursor.idxs).length + cs.length := by
  induction cs with
  | nil => rfl
  | cons c cs ih =>
    simp only [List.map_cons, List.flatMap_cons, List.length_append, List.length_cons, ih]
    simp only [SeqCursor.advance, List.length_append, List.length_singleton]
    omega

theorem mem_flatMap_advance (cs : List SeqCursor) (i : Nat) :
    i ∈ (cs.map SeqCursor.advance).flatMap SeqCursor.idxs ↔
      i ∈ cs.flatMap SeqCursor.idxs ∨ i ∈ cs.map SeqCursor.next := by
  induction cs with
  | nil => simp
  | cons c cs ih =>
    simp only [List.map_cons, List.flatMap_cons, List.mem_append, List.mem_cons, ih]
    simp only [SeqCursor.advance, List.mem_append, List.mem_singleton]
    tauto

theorem Marked.round {a a' : LlamaBatchAllocr} {cs : List SeqCursor} (h : Marked a cs a') :
    Marked a (cs.map SeqCursor.advance) (a'.takeTokens (cs.map SeqCursor.next)) := by
  subst h
  rw [takeTokens_eq]
  simp only [Marked, mk.injEq, true_and]
  refine ⟨?_, funext fun i => ?_⟩
  · rw [length_flatMap_advance, List.length_map]
    omega
  · simp only [mem_flatMap_advance, Bool.decide_or, Bool.or_assoc]

/-- A property that every possible advance of a cursor keeps holds of all cursors
after the rounds. -/
theorem expand_forall {P : SeqCursor → Prop} (nUbatch : Nat)
    (hadv : ∀ c, P c → c.cur < c.list.length → P c.advance) :
    ∀ (fuel : Nat) (cs : List SeqCursor) (a : LlamaBatchAllocr), (∀ c ∈ cs, P c) →
      ∀ c ∈ (expand nUbatch fuel cs a).1, P c
  | 0, _, _, h => h
  | fuel + 1, cs, a, h => by
      rw [expand]
      split
      · exact h
      next hfit =>
        have hadv' : ∀ c ∈ cs.map SeqCursor.advance, P c := by
          intro c hc
          obtain ⟨c, hmem, rfl⟩ := List.mem_map.mp hc
          exact hadv c (h c hmem) (not_le.mp fun hle => hfit ⟨c, hmem, hle⟩)
        dsimp only
        split
        · exact hadv'
        · exact expand_forall nUbatch hadv fuel _ _ hadv'

theorem expand_marked (nUbatch : Nat) {a : LlamaBatchAllocr} :
    ∀ (fuel : Nat) (cs : List SeqCursor) (a' : LlamaBatchAllocr), Marked a cs a' →
      Marked a (expand nUbatch fuel cs a').1 (expand nUbatch fuel cs a').2
  | 0, _, _, h => h
  | fuel + 1, cs, a', h => by
      rw [expand]
      split
      · exact h
      dsimp only
      split
      · exact h.round
      · exact expand_marked nUbatch fuel _ _ h.round

theorem expand_map_seqSet (nUbatch : Nat) :
    ∀ (fuel : Nat) (cs : List SeqCursor) (a : LlamaBatchAllocr),
      (expand nUbatch fuel cs a).1.map SeqCursor.seqSet = cs.map SeqCursor.seqSet
  | 0, _, _ => rfl
  | fuel + 1, cs, a => by
      have hadv : (cs.map SeqCursor.advance).map SeqCursor.seqSet = cs.map SeqCursor.seqSet := by
        rw [List.map_map]
        rfl
      rw [expand]
      split
      · rfl
      dsimp only
      split
      · exact hadv
      · rw [expand_map_seqSet nUbatch fuel, hadv]

/-- When no cursor is exhausted, the rounds take a token of every set. -/
theorem expand_idxs_ne (nUbatch : Nat) {fuel : Nat} {cs : List SeqCursor} (a : LlamaBatchAllocr)
    (hfuel : fuel ≠ 0) (hcs : ∀ c ∈ cs, c.cur < c.list.length) :
    ∀ c ∈ (expand nUbatch fuel cs a).1, c.idxs ≠ [] := by
  have hadv : ∀ c : SeqCursor, c.advance.idxs ≠ [] := by simp [SeqCursor.advance]
  have hne : ∀ c ∈ cs.map SeqCursor.advance, c.idxs ≠ [] := by
    intro c hc
    obtain ⟨c, -, rfl⟩ := List.mem_map.mp hc
    exact hadv c
  obtain ⟨fuel, rfl⟩ := Nat.exists_eq_succ_of_ne_zero hfuel
  rw [expand, if_neg fun ⟨c, hc, hle⟩ => absurd (hcs c hc) (not_lt.mpr hle)]
  dsimp only
  split
  · exact hne
  · exact expand_forall nUbatch (fun c _ _ => hadv c) fuel _ _ hne

/-! ## The tail phase -/

theorem putBack_putBackAll (a : LlamaBatchAllocr) (i : Nat) (is : List Nat) :
    (a.putBack i).putBackAll is = a.putBackAll (i :: is) := rfl

theorem putBackAll_append (a : LlamaBatchAllocr) (is js : List Nat) :
    (a.putBackAll is).putBackAll js = a.putBackAll (is ++ js) := by
  unfold putBackAll
  rw [List.foldl_append]

/-- The truncation gives back the last tokens of the cursor, as many as are missing
from the tail. -/
theorem truncate_eq (nKeepTail : Nat) : ∀ (fuel : Nat) (c : SeqCursor) (a : LlamaBatchAllocr)
    (m : Nat), fuel ≤ c.idxs.length → c.idxs.length ≤ c.cur → c.cur ≤ c.list.length →
      m = min fuel (nKeepTail - c.remaining) →
      truncate nKeepTail fuel c a =
        ({ c with idxs := c.idxs.take (c.idxs.length - m), cur := c.cur - m },
          a.putBackAll (c.idxs.drop (c.idxs.length - m)).reverse)
  | 0, c, a, m, _, _, _, hm => by
      have hm : m = 0 := by omega
      subst hm
      simp [truncate, putBackAll]
  | fuel + 1, c, a, m, hfuel, hidxs, hcur, hm => by
      rw [truncate]
      split
      next hlt =>
        obtain ⟨xs, x, hx⟩ : ∃ xs x, c.idxs = xs ++ [x] := by
          rcases List.eq_nil_or_concat' c.idxs with h | h
          · simp [h] at hfuel
          · exact h
        have hlen : c.idxs.length = xs.length + 1 := by simp [hx]
        obtain ⟨m, rfl⟩ : ∃ m', m = m' + 1 := ⟨m - 1, by omega⟩
        have hrem : c.list.length - (c.cur - 1) = c.remaining + 1 := by
          rw [SeqCursor.remaining]
          omega
        rw [truncate_eq nKeepTail fuel _ _ m (by simp [hx]; omega) (by simp [hx]; omega)
          (by simp; omega) (by simp only [SeqCursor.remaining]; omega), putBack_putBackAll]
        have hsub : c.idxs.length - (m + 1) = xs.length - m := by omega
        have hle : xs.length - m ≤ xs.length := Nat.sub_le ..
        simp only [hsub, Nat.sub_sub, Nat.add_comm 1 m]
        simp [hx, List.take_append_of_le_length hle, List.drop_append_of_le_length hle]
      next hge =>
        have hm : m = 0 := by omega
        subst hm
        simp [putBackAll]

namespace CursorOk

variable {a : LlamaBatchAllocr} {c : SeqCursor} (h : CursorOk a c)

include h

theorem shorten {m : Nat} (hm : m ≤ c.idxs.length) :
    CursorOk a { c with idxs := c.idxs.take (c.idxs.length - m), cur := c.cur - m } where
  list_eq := h.list_eq
  start_le := by
    have hlen := h.length_idxs
    have hstart := h.start_le
    dsimp only
    omega
  cur_le := (Nat.sub_le ..).trans h.cur_le
  idxs_eq := by
    have hlen := h.length_idxs
    have hmin : min (c.idxs.length - m) (c.cur - (a.cursorOf c.seqSet).cur) =
        c.cur - m - (a.cursorOf c.seqSet).cur := by omega
    rw [← hmin, ← List.take_take, ← h.idxs_eq]

theorem complete : CursorOk a { c with idxs := c.idxs ++ c.list.drop c.cur, cur := c.list.length } where
  list_eq := h.list_eq
  start_le := h.start_le.trans h.cur_le
  cur_le := le_rfl
  idxs_eq := by
    have hstart := h.start_le
    have hdrop : c.list.drop c.cur =
        (c.list.drop (a.cursorOf c.seqSet).cur).drop (c.cur - (a.cursorOf c.seqSet).cur) := by
      rw [List.drop_drop, Nat.add_sub_cancel' hstart]
    rw [h.idxs_eq, hdrop, List.take_append_drop, List.take_of_length_le (by simp)]

end CursorOk

/-- The outcome of the tail phase: the cursors `cs` are emitted, `full` are all
cursors with everything that was taken, and `put` is what went back. -/
structure Kept (a : LlamaBatchAllocr) (sets : List (Finset SeqId)) (full : List SeqCursor)
    (put : List Nat) (cs : List SeqCursor) (a' : LlamaBatchAllocr) : Prop where
  full_ok : ∀ c ∈ full, CursorOk a c
  full_sets : full.map SeqCursor.seqSet = sets
  ok : ∀ c ∈ cs, CursorOk a c
  sets_pre : cs.map SeqCursor.seqSet <+: sets
  ne : cs ≠ []
  idxs_ne : ∀ c ∈ cs, c.idxs ≠ []
  perm : (full.flatMap SeqCursor.idxs).Perm (cs.flatMap SeqCursor.idxs ++ put)
  marked : ∃ a₁, Marked a full a₁ ∧ a' = a₁.putBackAll put

section Tail

variable {a a₁ : LlamaBatchAllocr} {c : SeqCursor} {cs : List SeqCursor}
  {sets : List (Finset SeqId)}

theorem kept_all (hok : ∀ c ∈ cs, CursorOk a c) (hsets : cs.map SeqCursor.seqSet = sets)
    (hne : cs ≠ []) (hidxs : ∀ c ∈ cs, c.idxs ≠ []) (hm : Marked a cs a₁) (n : Nat) :
    Kept a sets cs ((cs.drop (n + 1)).flatMap SeqCursor.idxs) (cs.take (n + 1))
      (a₁.putBackAll ((cs.drop (n + 1)).flatMap SeqCursor.idxs)) where
  full_ok := hok
  full_sets := hsets
  ok := fun c hc => hok c (List.mem_of_mem_take hc)
  sets_pre := by
    rw [← hsets, List.map_take]
    exact List.take_prefix ..
  ne := by simpa using hne
  idxs_ne := fun c hc => hidxs c (List.mem_of_mem_take hc)
  perm := by rw [← List.flatMap_append, List.take_append_drop]
  marked := ⟨a₁, hm, rfl⟩

/-- Completing or shortening the first set and deferring the others. -/
theorem kept_first {nUbatch nKeepTail : Nat} (hk : nKeepTail < nUbatch)
    (hok : ∀ d ∈ c :: cs, CursorOk a d) (hsets : (c :: cs).map SeqCursor.seqSet = sets)
    (hidxs : ∀ d ∈ c :: cs, d.idxs ≠ []) (hm : Marked a (c :: cs) a₁) :
    ∃ full put, Kept a sets full put [(resolveFirst nUbatch nKeepTail c a₁).1]
      ((resolveFirst nUbatch nKeepTail c a₁).2.putBackAll (cs.flatMap SeqCursor.idxs)) := by
  have hc : CursorOk a c := hok c List.mem_cons_self
  have hcs : ∀ d ∈ cs, CursorOk a d := fun d hd => hok d (List.mem_cons_of_mem c hd)
  have hpre : [c.seqSet] <+: sets := by
    rw [← hsets, List.map_cons]
    exact ⟨cs.map SeqCursor.seqSet, rfl⟩
  have hcne : c.idxs ≠ [] := hidxs c List.mem_cons_self
  unfold resolveFirst
  split
  next hfit =>
    -- the rest of the set is taken, the other sets go back
    refine ⟨{ c with idxs := c.idxs ++ c.list.drop c.cur, cur := c.list.length } :: cs, cs.flatMap SeqCursor.idxs, ?_⟩
    exact
      { full_ok := fun d hd => by
          rcases List.mem_cons.mp hd with rfl | hd
          · exact hc.complete
          · exact hcs d hd
        full_sets := hsets
        ok := fun d hd => List.mem_singleton.mp hd ▸ hc.complete
        sets_pre := hpre
        ne := by simp
        idxs_ne := fun d hd => by
          rw [List.mem_singleton.mp hd]
          simp [hcne]
        perm := by simp
        marked := by
          refine ⟨_, ?_, rfl⟩
          subst hm
          rw [takeTokens_eq]
          simp only [Marked, mk.injEq, true_and]
          refine ⟨?_, funext fun i => ?_⟩
          · simp only [List.flatMap_cons, List.length_append]
            omega
          · simp only [List.flatMap_cons, List.mem_append, Bool.decide_or]
            cases a.used i <;> cases decide (i ∈ c.idxs) <;> simp [Bool.or_comm] }
  next hfit =>
    -- the last tokens of the set go back, and the other sets
    have hlen := hc.length_idxs
    have hcur := hc.cur_le
    obtain ⟨m, hm'⟩ : ∃ m, m = min c.idxs.length (nKeepTail - c.remaining) := ⟨_, rfl⟩
    rw [truncate_eq nKeepTail c.idxs.length c a₁ m le_rfl (by omega) hcur hm', putBackAll_append]
    refine ⟨c :: cs, (c.idxs.drop (c.idxs.length - m)).reverse ++ cs.flatMap SeqCursor.idxs, ?_⟩
    exact
      { full_ok := hok
        full_sets := hsets
        ok := fun d hd => List.mem_singleton.mp hd ▸ hc.shorten (by omega)
        sets_pre := hpre
        ne := by simp
        idxs_ne := fun d hd => by
          rw [List.mem_singleton.mp hd, ← List.length_pos_iff]
          have hpos := List.length_pos_iff.mpr hcne
          simp only [List.length_take]
          omega
        perm := by
          simp only [List.flatMap_cons, List.flatMap_nil, List.append_nil]
          rw [← List.append_assoc]
          refine List.Perm.append_right _ ?_
          have hsplit := List.take_append_drop (c.idxs.length - m) c.idxs
          nth_rewrite 1 [← hsplit]
          exact (List.reverse_perm _).symm.append_left _
        marked := ⟨a₁, hm, rfl⟩ }

theorem kept_keepTail {nUbatch nKeepTail : Nat} (hk : nKeepTail < nUbatch)
    (hok : ∀ c ∈ cs, CursorOk a c) (hsets : cs.map SeqCursor.seqSet = sets) (hne : cs ≠ [])
    (hidxs : ∀ c ∈ cs, c.idxs ≠ []) (hm : Marked a cs a₁) :
    ∃ full put, Kept a sets full put (keepTail nUbatch nKeepTail cs a₁).1
      (keepTail nUbatch nKeepTail cs a₁).2 := by
  obtain ⟨c, rest, rfl⟩ := List.exists_cons_of_ne_nil hne
  unfold keepTail
  cases nKeepOf nKeepTail (c :: rest) with
  | zero => exact kept_first hk hok hsets hidxs hm
  | succ n => exact ⟨_, _, kept_all hok hsets hne hidxs hm n⟩

end Tail

/-! ## `split_equal` -/

section Equal

variable {a a' : LlamaBatchAllocr} {Clean : Finset SeqId → Prop} {sets : List (Finset SeqId)}
  {full cs : List SeqCursor} {put : List Nat}

/-- A token of a clean set is taken at most once. -/
theorem Kept.pairwise (h : Kept a sets full put cs a')
    (hdup : sets.Pairwise fun S T => S = T → ¬Clean S) :
    (cs.flatMap SeqCursor.idxs ++ put).Pairwise fun i j => i = j → ¬Clean (a.batch.seqSet i) := by
  have hfull : (full.flatMap SeqCursor.idxs).Pairwise
      fun i j => i = j → ¬Clean (a.batch.seqSet i) := by
    rw [List.pairwise_flatMap]
    refine ⟨fun c hc => (h.full_ok c hc).idxs_sorted.imp fun hlt heq => absurd heq hlt.ne, ?_⟩
    rw [← h.full_sets, List.pairwise_map] at hdup
    refine hdup.imp_of_mem fun {c d} hc hd hcd i hi j hj hij => ?_
    have hci := ((h.full_ok c hc).mem_list hi).2
    have hdj := ((h.full_ok d hd).mem_list hj).2
    rw [hci]
    exact hcd (by rw [← hci, ← hdj, hij])
  exact (h.perm.pairwise_iff fun hij heq => heq ▸ hij heq.symm).mp hfull

theorem Kept.picks (h : Kept a sets full put cs a') (hdisj : sets.Pairwise Disjoint)
    (hdup : sets.Pairwise fun S T => S = T → ¬Clean S) (hdown : ∀ S, Clean S → Down a S) :
    Picks a Clean ⟨cs.flatMap SeqCursor.idxs, cs.length, true, a'⟩ := by
  obtain ⟨a₁, hm, ha'⟩ := h.marked
  rw [putBackAll_eq, hm] at ha'
  have hmem : ∀ i ∈ cs.flatMap SeqCursor.idxs, ∃ c ∈ cs, i ∈ c.idxs ∧
      i < a.batch.nTokens ∧ a.batch.seqSet i = c.seqSet := by
    intro i hi
    obtain ⟨c, hc, hi⟩ := List.mem_flatMap.mp hi
    exact ⟨c, hc, hi, (h.ok c hc).mem_list hi⟩
  have hput : ∀ i ∈ put, Clean (a.batch.seqSet i) → a.used i = false ∧ i ∉ cs.flatMap SeqCursor.idxs := by
    intro i hi hclean
    have hfull : i ∈ full.flatMap SeqCursor.idxs := h.perm.mem_iff.mpr (List.mem_append_right _ hi)
    obtain ⟨c, hc, hic⟩ := List.mem_flatMap.mp hfull
    have hset := ((h.full_ok c hc).mem_list hic).2
    refine ⟨(h.full_ok c hc).fresh (hdown _ (hset ▸ hclean)) hic, fun hcs => ?_⟩
    exact (List.pairwise_append.mp (h.pairwise hdup)).2.2 i hcs i hi rfl hclean
  exact
    { frame := ⟨_, _, ha'⟩
      ne := by
        obtain ⟨c, rest, rfl⟩ := List.exists_cons_of_ne_nil h.ne
        simp [h.idxs_ne c List.mem_cons_self]
      nSeqs_ne := by simpa using h.ne
      nUsed := by
        have hlen := h.perm.length_eq
        rw [List.length_append] at hlen
        simp only [ha']
        omega
      lt := fun i hi => by
        obtain ⟨c, -, -, hlt, -⟩ := hmem i hi
        exact hlt
      fresh := fun i hi hclean => by
        obtain ⟨c, hc, hic, -, hset⟩ := hmem i hi
        exact (h.ok c hc).fresh (hdown _ (hset ▸ hclean)) hic
      used := fun i hclean => by
        simp only [ha']
        by_cases hi : i ∈ put
        · obtain ⟨hused, hcs⟩ := hput i hi hclean
          simp [hi, hused, hcs]
        · have hiff : i ∈ full.flatMap SeqCursor.idxs ↔ i ∈ cs.flatMap SeqCursor.idxs := by
            rw [h.perm.mem_iff, List.mem_append, or_iff_left hi]
          simp [hi, hiff]
      order := by
        rw [List.pairwise_flatMap]
        refine ⟨fun c hc => (h.ok c hc).idxs_sorted.imp fun hlt _ _ => hlt, ?_⟩
        -- tokens of different sets overlap in no sequence
        have hcross := (hdisj.and hdup).sublist h.sets_pre.sublist
        rw [List.pairwise_map] at hcross
        refine hcross.imp_of_mem fun {c d} hc hd hcd i hi j hj hclean hshare => ?_
        rw [((h.ok c hc).mem_list hi).2] at hclean hshare
        rw [((h.ok d hd).mem_list hj).2] at hshare
        rcases hshare with heq | hnd
        · exact absurd hclean (hcd.2 heq)
        · exact absurd hcd.1 hnd }

theorem Kept.down (h : Kept a sets full put cs a')
    (hp : Picks a Clean ⟨cs.flatMap SeqCursor.idxs, cs.length, true, a'⟩)
    (hdown : ∀ S, Clean S → Down a S) : ∀ S, Clean S → Down a' S := by
  intro S hclean i j hij hj hi hset hused
  obtain ⟨used, nUsed, hframe⟩ := hp.frame
  dsimp only at hframe
  have hbatch : a'.batch = a.batch := by rw [hframe]
  rw [hbatch] at hj hi hset
  have hui := hp.used i (hi ▸ hclean)
  have huj := hp.used j (hset ▸ hclean)
  rw [huj, Bool.or_eq_true, decide_eq_true_eq] at hused
  rw [hui, Bool.or_eq_true, decide_eq_true_eq]
  rcases hused with hused | hmem
  · exact .inl (hdown S hclean i j hij hj hi hset hused)
  · obtain ⟨c, hc, hjc⟩ := List.mem_flatMap.mp hmem
    have hcS := ((h.ok c hc).mem_list hjc).2
    refine ((h.ok c hc).used_or_mem hjc hij (by rw [hi, ← hset, hcS])).imp_right fun hic => ?_
    exact List.mem_flatMap.mpr ⟨c, hc, hic⟩

end Equal

/-- After the rounds every gathered set has a cursor that has taken a token, and
exactly the taken tokens are marked. -/
theorem expand_gathered (a : LlamaBatchAllocr) (nUbatch : Nat) (sequential : Bool)
    (hne : a.gatherSeqSets nUbatch sequential ≠ []) :
    let e := expand nUbatch a.batch.nTokens ((a.gatherSeqSets nUbatch sequential).map a.cursorOf) a
    (∀ c ∈ e.1, CursorOk a c) ∧ Marked a e.1 e.2 ∧
      e.1.map SeqCursor.seqSet = a.gatherSeqSets nUbatch sequential ∧ e.1 ≠ [] ∧
      ∀ c ∈ e.1, c.idxs ≠ [] := by
  have hunused : ∀ S ∈ a.gatherSeqSets nUbatch sequential, ∃ i < a.batch.nTokens,
      a.used i = false ∧ a.batch.seqSet i = S :=
    fun S => exists_unused_of_mem_gatherSeqSets a nUbatch sequential
  generalize a.gatherSeqSets nUbatch sequential = sets at hne hunused ⊢
  obtain ⟨S₀, hS₀⟩ := List.exists_mem_of_ne_nil _ hne
  have hn : a.batch.nTokens ≠ 0 := by
    obtain ⟨i, hi, -⟩ := hunused S₀ hS₀
    omega
  -- before the rounds every cursor stands at an unused token
  have hok₀ : ∀ c ∈ sets.map a.cursorOf, CursorOk a c := by
    intro c hc
    obtain ⟨S, -, rfl⟩ := List.mem_map.mp hc
    exact cursorOf_ok a S
  have hcur₀ : ∀ c ∈ sets.map a.cursorOf, c.cur < c.list.length := by
    intro c hc
    obtain ⟨S, hS, rfl⟩ := List.mem_map.mp hc
    obtain ⟨i, hi, hused, hset⟩ := hunused S hS
    exact List.findIdx_lt_length_of_exists
      ⟨i, (mem_seqSetMap ..).mpr ⟨hi, hset⟩, by simpa using hused⟩
  have hmarked₀ : Marked a (sets.map a.cursorOf) a := by
    have hnone : (sets.map a.cursorOf).flatMap SeqCursor.idxs = [] := by
      rw [List.flatMap_eq_nil_iff]
      intro c hc
      obtain ⟨S, -, rfl⟩ := List.mem_map.mp hc
      rfl
    simp [Marked, hnone]
  have hsets₀ : (sets.map a.cursorOf).map SeqCursor.seqSet = sets := by
    rw [List.map_map]
    exact List.map_id' sets
  have hsets := (expand_map_seqSet nUbatch a.batch.nTokens _ a).trans hsets₀
  refine ⟨expand_forall nUbatch (fun c hc hlt => CursorOk.advance hc hlt) _ _ a hok₀,
    expand_marked nUbatch _ _ a hmarked₀, hsets, fun hnil => ?_, expand_idxs_ne nUbatch a hn hcur₀⟩
  rw [hnil] at hsets
  exact hne hsets.symm

variable {nKeepTail nUbatch : Nat} {sequential : Bool}

/-- `split_equal` emits some of the gathered sets and puts the rest back. -/
theorem pickEqual_eq {a : LlamaBatchAllocr} (hseq : sequential = true → a.batch.hasCpl = false)
    (hk : nKeepTail < nUbatch) (hne : a.gatherSeqSets nUbatch sequential ≠ []) :
    ∃ full put cs a', a.pickEqual nUbatch sequential nKeepTail =
        some ⟨cs.flatMap SeqCursor.idxs, cs.length, true, a'⟩ ∧
      Kept a (a.gatherSeqSets nUbatch sequential) full put cs a' := by
  have hcpl : ¬(sequential = true ∧ a.batch.hasCpl = true) := by
    rintro ⟨hs, hc⟩
    rw [hseq hs] at hc
    cases hc
  obtain ⟨hok, hmarked, hsets, hne', hidxs⟩ := expand_gathered a nUbatch sequential hne
  unfold pickEqual
  dsimp only at hok hmarked hsets hne' hidxs ⊢
  rw [if_neg hcpl, if_neg hne, if_neg (not_le.mpr hk)]
  by_cases hzero : nKeepTail = 0
  · rw [if_pos hzero]
    have hkept := kept_all hok hsets hne' hidxs hmarked
      (expand nUbatch a.batch.nTokens
        ((a.gatherSeqSets nUbatch sequential).map a.cursorOf) a).1.length
    rw [List.take_of_length_le (by omega), List.drop_eq_nil_of_le (by omega)] at hkept
    exact ⟨_, _, _, _, rfl, hkept⟩
  · rw [if_neg hzero]
    obtain ⟨full, put, hkept⟩ := kept_keepTail hk hok hsets hne' hidxs hmarked
    exact ⟨full, put, _, _, rfl, hkept⟩

theorem pickEqual_eq_none {a : LlamaBatchAllocr} (hnil : a.gatherSeqSets nUbatch sequential = []) :
    a.pickEqual nUbatch sequential nKeepTail = some a.pickedNone := by
  unfold pickEqual
  split
  · rfl
  · dsimp only
    rw [if_pos hnil]

/-- The effect of `split_equal`, for the sets that are gathered once and whose used
tokens are the first ones. -/
theorem picks_equal {a : LlamaBatchAllocr} {Clean : Finset SeqId → Prop}
    (hseq : sequential = true → a.batch.hasCpl = false) (hk : nKeepTail < nUbatch)
    (hdown : ∀ S, Clean S → Down a S)
    (hdup : (a.gatherSeqSets nUbatch sequential).Pairwise fun S T => S = T → ¬Clean S) :
    (a.pickEqual nUbatch sequential nKeepTail = some a.pickedNone ∧ ∀ i < a.batch.nTokens, a.used i = true) ∨
      ∃ p, a.pickEqual nUbatch sequential nKeepTail = some p ∧ Picks a Clean p ∧ ∀ S, Clean S → Down p.allocr S := by
  by_cases hnil : a.gatherSeqSets nUbatch sequential = []
  · exact .inl ⟨pickEqual_eq_none hnil, used_of_gatherSeqSets_eq_nil a nUbatch sequential hnil⟩
  obtain ⟨full, put, cs, a', heq, hkept⟩ := pickEqual_eq hseq hk hnil
  have hp := hkept.picks (gatherSeqSets_disjoint a nUbatch sequential) hdup hdown
  exact .inr ⟨_, heq, hp, hkept.down hp hdown⟩

/-- A set that is gathered twice has its first token taken twice. -/
theorem gatherSeqSets_nodup_of_idxs_nodup {a : LlamaBatchAllocr}
    (hseq : sequential = true → a.batch.hasCpl = false) {p : Picked}
    (hp : a.pickEqual nUbatch sequential 0 = some p) (hnd : p.idxs.Nodup) :
    (a.gatherSeqSets nUbatch sequential).Nodup := by
  by_cases hnil : a.gatherSeqSets nUbatch sequential = []
  · rw [hnil]
    exact .nil
  have hcpl : ¬(sequential = true ∧ a.batch.hasCpl = true) := by
    rintro ⟨hs, hc⟩
    rw [hseq hs] at hc
    cases hc
  obtain ⟨hok, -, hsets, -, hidxs⟩ := expand_gathered a nUbatch sequential hnil
  unfold pickEqual at hp
  dsimp only at hok hsets hidxs hp
  rw [if_neg hcpl, if_neg hnil, if_pos rfl] at hp
  cases hp
  rw [← hsets]
  rw [List.Nodup, List.pairwise_flatMap] at hnd
  refine List.pairwise_map.mpr (hnd.2.imp_of_mem fun {c d} hc hd hcd heq => ?_)
  -- both cursors took the first unused token of the set
  have hhead : ∀ c, CursorOk a c → c.idxs ≠ [] → ∃ i ∈ c.idxs,
      (a.batch.seqSetMap c.seqSet)[(a.cursorOf c.seqSet).cur]? = some i := by
    intro c hc hne
    have hlen := hc.length_idxs
    have hpos := List.length_pos_iff.mpr hne
    have hcur := hc.cur_le
    have hlt : (a.cursorOf c.seqSet).cur < c.list.length := by omega
    refine ⟨c.list[(a.cursorOf c.seqSet).cur], ?_, ?_⟩
    · exact (hc.mem_idxs _).mpr ⟨_, le_rfl, by omega, List.getElem?_eq_getElem hlt⟩
    · rw [← hc.list_eq, List.getElem?_eq_getElem hlt]
  obtain ⟨i, hi, hci⟩ := hhead c (hok c hc) (hidxs c hc)
  obtain ⟨j, hj, hdj⟩ := hhead d (hok d hd) (hidxs d hd)
  rw [heq, hdj] at hci
  exact hcd i hi j hj (Option.some.inj hci).symm

end LlamaCpp.LlamaBatchAllocr
