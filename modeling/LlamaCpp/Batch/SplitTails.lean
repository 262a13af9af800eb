import LlamaCpp.Batch.UbatchShape

/-!
# The rollback tail of a sequence set

A recurrent memory can roll a sequence back as long as its last tokens were computed in one ubatch.  `split_equal` with
`n_keep_tail` promises that: between two calls a set has no token left, at least `n_keep_tail`, or all of them
(`TailInv`).  A call keeps that by deferring a set, completing it or shortening it (`TailInv.step`), so no ubatch has a
part of a tail (`splitEqual_tails_together`).

Tokens without a sequence have the empty set, which is gathered once for each of them.  Then a token can be emitted and
given back in one call, and `used` has gaps.  The invariant therefore says nothing about the last tokens of a set behind
its first unused one.
-/

namespace LlamaCpp

open List Option Bool

/-- The last `k` tokens of a sequence set. -/
def FilledBatch.tailOf (batch : FilledBatch) (S : Finset SeqId) (k : Nat) : List Nat :=
  (batch.seqSetMap S).drop ((batch.seqSetMap S).length - k)

namespace LlamaBatchAllocr

/-! ## Places in a set -/

section Places

variable {a : LlamaBatchAllocr} {S : Finset SeqId} {c : SeqCursor} {i j : Nat}

theorem place_inj (hj : (a.batch.seqSetMap S)[j]? = some i) {j' : Nat} (hj' : (a.batch.seqSetMap S)[j']? = some i) :
    j = j' := by
  have hnodup : (a.batch.seqSetMap S).Nodup := (seqSetMap_sorted a.batch S).imp Nat.ne_of_lt
  exact (getElem?_inj (List.getElem?_eq_some_iff.mp hj).1 hnodup).mp (hj.trans hj'.symm)

theorem mem_drop_iff (hj : (a.batch.seqSetMap S)[j]? = some i) (q : Nat) : i ∈ (a.batch.seqSetMap S).drop q ↔ q ≤ j := by
  rw [mem_iff_getElem?]
  constructor
  · rintro ⟨k, hk⟩
    rw [getElem?_drop] at hk
    have := place_inj hj hk
    omega
  · intro hle
    exact ⟨j - q, by rw [getElem?_drop, Nat.add_sub_cancel' hle, hj]⟩

theorem mem_take_iff (hj : (a.batch.seqSetMap S)[j]? = some i) (q n : Nat) :
    i ∈ ((a.batch.seqSetMap S).drop q).take n ↔ q ≤ j ∧ j < q + n := by
  rw [mem_iff_getElem?]
  constructor
  · rintro ⟨k, hk⟩
    rw [getElem?_take] at hk
    split at hk
    · rw [getElem?_drop] at hk
      have := place_inj hj hk
      omega
    · cases hk
  · rintro ⟨hle, hlt⟩
    exact ⟨j - q, by rw [getElem?_take, if_pos (by omega), getElem?_drop, Nat.add_sub_cancel' hle, hj]⟩

theorem CursorOk.mem_idxs_iff (h : CursorOk a c) (hS : c.seqSet = S) (hj : (a.batch.seqSetMap S)[j]? = some i) :
    i ∈ c.idxs ↔ (a.cursorOf S).cur ≤ j ∧ j < c.cur := by
  subst hS
  have hstart := h.start_le
  rw [h.idxs_eq, h.list_eq, mem_take_iff hj, Nat.add_sub_cancel' hstart]

/-- The cursors at level `m` have taken the first `m` unused tokens of their sets. -/
theorem mem_taken_iff {cs : List SeqCursor} {m : Nat} (hok : ∀ c ∈ cs, CursorOk a c) (hlevel : Level cs m)
    (hj : (a.batch.seqSetMap S)[j]? = some i) :
    i ∈ cs.flatMap SeqCursor.idxs ↔ S ∈ cs.map SeqCursor.seqSet ∧ (a.cursorOf S).cur ≤ j ∧ j < (a.cursorOf S).cur + m := by
  have hset : a.batch.seqSet i = S := ((mem_seqSetMap ..).mp (mem_of_getElem? hj)).2
  have hcur : ∀ c ∈ cs, c.seqSet = S → c.cur = (a.cursorOf S).cur + m := by
    rintro c hc rfl
    have hlen := (hok c hc).length_idxs
    have hstart := (hok c hc).start_le
    rw [hlevel c hc] at hlen
    omega
  rw [mem_flatMap, List.mem_map]
  constructor
  · rintro ⟨c, hc, hi⟩
    have hS : c.seqSet = S := ((hok c hc).mem_list hi).2.symm.trans hset
    have hplace := ((hok c hc).mem_idxs_iff hS hj).mp hi
    rw [hcur c hc hS] at hplace
    exact ⟨⟨c, hc, hS⟩, hplace⟩
  · rintro ⟨⟨c, hc, hS⟩, hplace⟩
    exact ⟨c, hc, ((hok c hc).mem_idxs_iff hS hj).mpr (hcur c hc hS ▸ hplace)⟩

end Places

/-! ## Between two calls -/

/-- The first unused token of the set is at place `f`: the set is complete, untouched or has at least `k` tokens left,
none of which is used in front of the last `k`. -/
structure TailInv (a : LlamaBatchAllocr) (k : Nat) (S : Finset SeqId) (f : Nat) : Prop where
  le : f ≤ (a.batch.seqSetMap S).length
  before : ∀ j i, j < f → (a.batch.seqSetMap S)[j]? = some i → a.used i = true
  first : ∀ i, (a.batch.seqSetMap S)[f]? = some i → a.used i = false
  left : f = 0 ∨ f + k ≤ (a.batch.seqSetMap S).length ∨ f = (a.batch.seqSetMap S).length
  after : ∀ j i, f ≤ j → j + k ≤ (a.batch.seqSetMap S).length → (a.batch.seqSetMap S)[j]? = some i → a.used i = false

section Step

variable {a a₁ a' : LlamaBatchAllocr} {nUbatch k m f : Nat} {S : Finset SeqId} {cs cs' : List SeqCursor}

theorem TailInv.cur_eq (h : TailInv a k S f) : (a.cursorOf S).cur = f := by
  rcases Nat.lt_or_eq_of_le h.le with hlt | heq
  · refine (findIdx_eq hlt).mpr ⟨?_, fun j hj => ?_⟩
    · simpa using h.first _ (getElem?_eq_getElem hlt)
    · simpa using h.before j _ hj (getElem?_eq_getElem (hj.trans hlt))
  · subst heq
    refine findIdx_eq_length.mpr fun i hi => ?_
    obtain ⟨j, hj⟩ := mem_iff_getElem?.mp hi
    simpa using h.before j i (List.getElem?_eq_some_iff.mp hj).1 hj

theorem tailInv_reset (a : LlamaBatchAllocr) (k : Nat) (S : Finset SeqId) : TailInv a.splitReset k S 0 where
  le := Nat.zero_le _
  before := fun j _ hj => absurd hj (Nat.not_lt_zero j)
  first := fun _ _ => rfl
  left := .inl rfl
  after := fun _ _ _ _ _ => rfl

/-- The invariant is about the batch and the used tokens only. -/
theorem TailInv.congr (h : TailInv a k S f) (hbatch : a'.batch = a.batch) (hused : a'.used = a.used) :
    TailInv a' k S f := by
  obtain ⟨nPosPerEmbd, batch, nEmbd, nSeqMax, outIds, nUsed, used⟩ := a'
  obtain rfl : batch = a.batch := hbatch
  obtain rfl : used = a.used := hused
  exact ⟨h.le, h.before, h.first, h.left, h.after⟩

/-- A set whose tokens are used up to place `f'`, which is where it started, or where at least `k` or none are
left. -/
theorem TailInv.moved {used' : Nat → Bool} {f' : Nat} (h : TailInv a k S f) (hk : 1 ≤ k) (hf : f ≤ f')
    (hleft : f' = f ∨ f' + k ≤ (a.batch.seqSetMap S).length ∨ f' = (a.batch.seqSetMap S).length)
    (hbefore : ∀ j i, j < f' → (a.batch.seqSetMap S)[j]? = some i → used' i = true)
    (hafter : ∀ j i, f' ≤ j → (j = f ∨ j + k ≤ (a.batch.seqSetMap S).length) → (a.batch.seqSetMap S)[j]? = some i →
      used' i = true → a.used i = true) (nUsed' : Nat) :
    TailInv { a with used := used', nUsed := nUsed' } k S f' := by
  have hunused : ∀ j i, f' ≤ j → (j = f ∨ j + k ≤ (a.batch.seqSetMap S).length) →
      (a.batch.seqSetMap S)[j]? = some i → used' i = false := by
    intro j i hj hjk hi
    by_contra hu
    have hold := hafter j i hj hjk hi (by simpa using hu)
    have hnew : a.used i = false := by
      rcases hjk with rfl | hjk
      · exact h.first i hi
      · exact h.after j i (hf.trans hj) hjk hi
    rw [hnew] at hold
    cases hold
  have hle := h.le
  exact
    { le := by
        dsimp only
        omega
      before := hbefore
      first := fun i hi => by
        have hlt := (List.getElem?_eq_some_iff.mp hi).1
        dsimp only at hlt
        exact hunused f' i le_rfl (by omega) hi
      left := by
        rcases hleft with rfl | hleft
        · exact h.left
        · exact .inr hleft
      after := fun j i hj hjk hi => hunused j i hj (.inr hjk) hi }

/-- What the rounds and the tail phase do to a set. -/
theorem TailInv.step (hk : 1 ≤ k) (hku : k < nUbatch) (h : TailInv a k S f) (hok : ∀ c ∈ cs, CursorOk a c)
    (hlevel : Level cs m) (hm : 1 ≤ m) (hmark : Marked a cs a₁) (hcase : TailCase nUbatch k cs a₁ cs' a') :
    ∃ f', TailInv a' k S f' := by
  have hcur := h.cur_eq
  -- which tokens of the set the cursors have taken
  have hmem : ∀ ds : List SeqCursor, (∀ d ∈ ds, d ∈ cs) → ∀ j i, (a.batch.seqSetMap S)[j]? = some i →
      (i ∈ ds.flatMap SeqCursor.idxs ↔ S ∈ ds.map SeqCursor.seqSet ∧ f ≤ j ∧ j < f + m) := by
    intro ds hds j i hi
    rw [mem_taken_iff (fun d hd => hok d (hds d hd)) (fun d hd => hlevel d (hds d hd)) hi, hcur]
  have hplace : ∀ c ∈ cs, c.seqSet = S → c.cur = f + m ∧ c.list = a.batch.seqSetMap S ∧
      f + m + c.remaining = (a.batch.seqSetMap S).length := by
    rintro c hc rfl
    have hlen := (hok c hc).length_idxs
    have hstart := (hok c hc).start_le
    have hle := (hok c hc).cur_le
    rw [hlevel c hc, hcur] at hlen
    rw [hcur] at hstart
    refine ⟨by omega, (hok c hc).list_eq, ?_⟩
    rw [SeqCursor.remaining, ← (hok c hc).list_eq]
    omega
  unfold Marked at hmark
  subst hmark
  cases hcase with
  | keep n hn hkeep hlast =>
    rw [putBackAll_eq]
    have hput := hmem (cs.drop (n + 1)) fun d hd => mem_of_mem_drop hd
    have htaken := hmem cs fun d hd => hd
    have hsets : S ∈ cs.map SeqCursor.seqSet ↔
        S ∈ (cs.take (n + 1)).map SeqCursor.seqSet ∨ S ∈ (cs.drop (n + 1)).map SeqCursor.seqSet := by
      rw [← List.mem_append, ← map_append, take_append_drop]
    by_cases hS : S ∈ (cs.take (n + 1)).map SeqCursor.seqSet ∧ S ∉ (cs.drop (n + 1)).map SeqCursor.seqSet
    · obtain ⟨c, hc, hcS⟩ := List.mem_map.mp hS.1
      obtain ⟨-, -, hrem⟩ := hplace c (mem_of_mem_take hc) hcS
      have hc' := hkeep c hc
      refine ⟨f + m, h.moved hk (by omega) (by omega) (fun j i hj hi => ?_) (fun j i hj hjk hi hu => ?_) _⟩
      · have hold : j < f → a.used i = true := fun hlt => h.before j i hlt hi
        simp only [and_eq_true, or_eq_true, decide_eq_true_eq, not_eq_true', decide_eq_false_iff_not,
          hput j i hi, htaken j i hi]
        by_cases hlt : j < f
        · exact ⟨.inl (hold hlt), fun hd => hS.2 hd.1⟩
        · exact ⟨.inr ⟨hsets.mpr (.inl hS.1), by omega⟩, fun hd => hS.2 hd.1⟩
      · simp only [and_eq_true, or_eq_true, decide_eq_true_eq, htaken j i hi] at hu
        rcases hu.1 with hu | hu
        · exact hu
        · omega
    · refine ⟨f, h.moved hk le_rfl (.inl rfl) (fun j i hj hi => ?_) (fun j i hj hjk hi hu => ?_) _⟩
      · have hold := h.before j i hj hi
        simp only [and_eq_true, or_eq_true, decide_eq_true_eq, not_eq_true', decide_eq_false_iff_not, hput j i hi]
        exact ⟨.inl hold, by omega⟩
      · simp only [and_eq_true, or_eq_true, decide_eq_true_eq, not_eq_true', decide_eq_false_iff_not,
          hput j i hi, htaken j i hi] at hu
        rcases hu.1 with hu' | ⟨hin, hrange⟩
        · exact hu'
        · rcases hsets.mp hin with hin | hin
          · by_cases hd : S ∈ (cs.drop (n + 1)).map SeqCursor.seqSet
            · exact absurd ⟨hd, hrange⟩ hu.2
            · exact absurd ⟨hin, hd⟩ hS
          · exact absurd ⟨hin, hrange⟩ hu.2
  | complete c rest hcs hrem hfit =>
    subst hcs
    rw [takeTokens_eq, putBackAll_eq]
    have hput := hmem rest fun d hd => mem_cons_of_mem c hd
    have htaken := hmem (c :: rest) fun d hd => hd
    have hdrop : ∀ j i, (a.batch.seqSetMap S)[j]? = some i → (i ∈ c.list.drop c.cur ↔ c.seqSet = S ∧ f + m ≤ j) := by
      intro j i hi
      by_cases hS : c.seqSet = S
      · obtain ⟨hc, hlist, -⟩ := hplace c mem_cons_self hS
        rw [hlist, hc, mem_drop_iff hi, and_iff_right hS]
      · refine iff_of_false (fun hin => hS ?_) fun hand => hS hand.1
        have hset := ((mem_seqSetMap ..).mp ((hok c mem_cons_self).list_eq ▸ mem_of_mem_drop hin)).2
        exact hset.symm.trans ((mem_seqSetMap ..).mp (mem_of_getElem? hi)).2
    by_cases hS : c.seqSet = S ∧ S ∉ rest.map SeqCursor.seqSet
    · -- the set is complete
      obtain ⟨-, -, hlen⟩ := hplace c mem_cons_self hS.1
      refine ⟨_, h.moved hk h.le (.inr (.inr rfl)) (fun j i hj hi => ?_) (fun j i hj hjk hi hu => by omega) _⟩
      have hold : j < f → a.used i = true := fun hlt => h.before j i hlt hi
      simp only [and_eq_true, or_eq_true, decide_eq_true_eq, not_eq_true', decide_eq_false_iff_not,
        hput j i hi, htaken j i hi, hdrop j i hi]
      refine ⟨?_, fun hd => hS.2 hd.1⟩
      by_cases hlt : j < f
      · exact .inl (.inl (hold hlt))
      · by_cases hrange : j < f + m
        · exact .inl (.inr ⟨List.mem_map.mpr ⟨c, mem_cons_self, hS.1⟩, by omega⟩)
        · exact .inr ⟨hS.1, by omega⟩
    · refine ⟨f, h.moved hk le_rfl (.inl rfl) (fun j i hj hi => ?_) (fun j i hj hjk hi hu => ?_) _⟩
      · have hold := h.before j i hj hi
        simp only [and_eq_true, or_eq_true, decide_eq_true_eq, not_eq_true', decide_eq_false_iff_not, hput j i hi]
        exact ⟨.inl (.inl hold), by omega⟩
      · simp only [and_eq_true, or_eq_true, decide_eq_true_eq, not_eq_true', decide_eq_false_iff_not,
          hput j i hi, htaken j i hi, hdrop j i hi] at hu
        rcases hu.1 with (hu' | ⟨hin, hrange⟩) | ⟨hc, hrange⟩
        · exact hu'
        · refine absurd ⟨?_, hrange⟩ hu.2
          rcases mem_cons.mp hin with hc | hin
          · by_contra hnot
            exact hS ⟨hc.symm, hnot⟩
          · exact hin
        · -- fewer than `k` tokens remained
          obtain ⟨-, -, hlen⟩ := hplace c mem_cons_self hc
          omega
  | shorten c rest m' hcs hrem hfit hm' =>
    subst hcs
    rw [putBackAll_eq]
    have hmc : c.idxs.length = m := hlevel c mem_cons_self
    have hput := hmem rest fun d hd => mem_cons_of_mem c hd
    have htaken := hmem (c :: rest) fun d hd => hd
    have hdrop : ∀ j i, (a.batch.seqSetMap S)[j]? = some i →
        (i ∈ c.idxs.drop (c.idxs.length - m') ↔ c.seqSet = S ∧ f + m - m' ≤ j ∧ j < f + m) := by
      intro j i hi
      by_cases hS : c.seqSet = S
      · obtain ⟨hc, hlist, -⟩ := hplace c mem_cons_self hS
        have hidxs := (hok c mem_cons_self).idxs_eq
        rw [hS, hcur, hc, hlist, Nat.add_sub_cancel_left] at hidxs
        rw [hmc, hidxs, drop_take, drop_drop, mem_take_iff hi, and_iff_right hS]
        omega
      · refine iff_of_false (fun hin => hS ?_) fun hand => hS hand.1
        have hset := ((hok c mem_cons_self).mem_list (mem_of_mem_drop hin)).2
        exact hset.symm.trans ((mem_seqSetMap ..).mp (mem_of_getElem? hi)).2
    by_cases hS : c.seqSet = S ∧ S ∉ rest.map SeqCursor.seqSet
    · -- exactly `k` tokens are left
      obtain ⟨-, -, hlen⟩ := hplace c mem_cons_self hS.1
      refine ⟨f + m - m', h.moved hk (by omega) (.inr (.inl (by omega))) (fun j i hj hi => ?_) (fun j i hj hjk hi hu => ?_) _⟩
      · have hold : j < f → a.used i = true := fun hlt => h.before j i hlt hi
        simp only [and_eq_true, or_eq_true, decide_eq_true_eq, not_eq_true', decide_eq_false_iff_not,
          List.mem_append, mem_reverse, hput j i hi, htaken j i hi, hdrop j i hi]
        refine ⟨?_, ?_⟩
        · by_cases hlt : j < f
          · exact .inl (hold hlt)
          · exact .inr ⟨List.mem_map.mpr ⟨c, mem_cons_self, hS.1⟩, by omega⟩
        · rintro (hd | hd)
          · omega
          · exact hS.2 hd.1
      · simp only [and_eq_true, or_eq_true, decide_eq_true_eq, not_eq_true', decide_eq_false_iff_not,
          List.mem_append, mem_reverse, hdrop j i hi] at hu
        exact absurd (.inl ⟨hS.1, by omega⟩) hu.2
    · refine ⟨f, h.moved hk le_rfl (.inl rfl) (fun j i hj hi => ?_) (fun j i hj hjk hi hu => ?_) _⟩
      · have hold := h.before j i hj hi
        simp only [and_eq_true, or_eq_true, decide_eq_true_eq, not_eq_true', decide_eq_false_iff_not,
          List.mem_append, mem_reverse, hput j i hi, hdrop j i hi]
        exact ⟨.inl hold, by omega⟩
      · simp only [and_eq_true, or_eq_true, decide_eq_true_eq, not_eq_true', decide_eq_false_iff_not,
          List.mem_append, mem_reverse, hput j i hi, htaken j i hi] at hu
        rcases hu.1 with hu' | ⟨hin, hrange⟩
        · exact hu'
        · refine absurd (.inr ⟨?_, hrange⟩) hu.2
          rcases mem_cons.mp hin with hc | hin
          · by_contra hnot
            exact hS ⟨hc.symm, hnot⟩
          · exact hin

/-- An emitted cursor has completed its set, or left at least `k` tokens of it. -/
theorem TailCase.remaining (hku : k < nUbatch) (hcase : TailCase nUbatch k cs a₁ cs' a') (hok : ∀ c ∈ cs, CursorOk a c) :
    ∀ c ∈ cs', c.remaining = 0 ∨ k ≤ c.remaining := by
  cases hcase with
  | keep n hn hkeep hlast => exact hkeep
  | complete c rest hcs hrem hfit =>
    intro d hd
    rw [mem_singleton.mp hd]
    exact .inl (Nat.sub_self _)
  | shorten c rest m hcs hrem hfit hm =>
    intro d hd
    rw [mem_singleton.mp hd]
    have hc := hok c (hcs ▸ mem_cons_self)
    have hlen := hc.length_idxs
    have hle := hc.cur_le
    unfold SeqCursor.remaining at hrem hfit hm ⊢
    dsimp only
    omega

/-- A cursor that leaves no part of the tail has it whole or not at all. -/
theorem TailInv.tail_subset {c : SeqCursor} (h : TailInv a k S f) (hc : CursorOk a c) (hS : c.seqSet = S)
    (hrem : c.remaining = 0 ∨ k ≤ c.remaining) {i : Nat} (hi : i ∈ a.batch.tailOf S k) (hic : i ∈ c.idxs) :
    ∀ i' ∈ a.batch.tailOf S k, i' ∈ c.idxs := by
  have hcur := h.cur_eq
  have hleft := h.left
  have hlen : c.cur + c.remaining = (a.batch.seqSetMap S).length := by
    have hle := hc.cur_le
    rw [SeqCursor.remaining, hc.list_eq, hS] at *
    omega
  have hplace : ∀ i' ∈ a.batch.tailOf S k, ∃ j, (a.batch.seqSetMap S)[j]? = some i' ∧
      (a.batch.seqSetMap S).length - k ≤ j := by
    intro i' hi'
    obtain ⟨j, hj⟩ := mem_iff_getElem?.mp (mem_of_mem_drop hi')
    exact ⟨j, hj, (mem_drop_iff hj _).mp hi'⟩
  obtain ⟨j, hj, hjk⟩ := hplace i hi
  have hjc := (hc.mem_idxs_iff hS hj).mp hic
  have hjn := (List.getElem?_eq_some_iff.mp hj).1
  intro i' hi'
  obtain ⟨j', hj', hjk'⟩ := hplace i' hi'
  have hjn' := (List.getElem?_eq_some_iff.mp hj').1
  rw [hc.mem_idxs_iff hS hj', hcur]
  omega

end Step

/-! ## All calls -/

section Runs

variable {a a' : LlamaBatchAllocr} {nUbatch k : Nat} {sequential : Bool}

/-- No tail is split by the tokens of a ubatch. -/
def TailsTogether (batch : FilledBatch) (k : Nat) (idxs : List Nat) : Prop :=
  ∀ S, (∃ i ∈ batch.tailOf S k, i ∈ idxs) → ∀ i ∈ batch.tailOf S k, i ∈ idxs

theorem splitCall_tails (hk : 1 ≤ k) (hku : k < nUbatch) (h : ∀ S, ∃ f, TailInv a k S f) {c : SplitCall}
    (hcall : splitCall (.equal sequential k) nUbatch a = some (c, a')) :
    a'.batch = a.batch ∧ (∀ S, ∃ f, TailInv a' k S f) ∧ TailsTogether a.batch k c.idxs := by
  obtain ⟨p, hp, heq⟩ := map_eq_some_iff.mp hcall
  obtain ⟨rfl, rfl⟩ := Prod.mk.inj heq
  rcases pickEqual_cases hp with ⟨rfl, -⟩ | ⟨-, hne, cs, a₁, rfl, hcase⟩
  · exact ⟨rfl, h, fun S ⟨i, _, hi⟩ => absurd hi not_mem_nil⟩
  obtain ⟨m, hlevel, hm, -⟩ := rounds_level hne
  obtain ⟨hok, hmark, -, -, -⟩ := expand_gathered a nUbatch sequential hne
  have hubatch : (Picked.mk (cs.flatMap SeqCursor.idxs) cs.length true a₁).ubatch =
      a₁.ubatchAdd (cs.flatMap SeqCursor.idxs) cs.length true := if_neg (by simpa using hcase.ne)
  have hbatch : a₁.batch = a.batch := hcase.batch.trans (hmark ▸ rfl)
  rw [hubatch]
  refine ⟨hbatch, fun S => ?_, fun S ⟨i, hi, hin⟩ i' hi' => ?_⟩
  · obtain ⟨f, hf⟩ := h S
    obtain ⟨f', hf'⟩ := hf.step hk hku hok hlevel hm hmark hcase
    exact ⟨f', hf'.congr rfl rfl⟩
  · obtain ⟨f, hf⟩ := h S
    obtain ⟨c, hc, hic⟩ := mem_flatMap.mp hin
    have hcok := hcase.cursorOk hok c hc
    have hS : c.seqSet = S :=
      (hcok.mem_list hic).2.symm.trans ((mem_seqSetMap ..).mp (mem_of_mem_drop hi)).2
    exact mem_flatMap.mpr ⟨c, hc, hf.tail_subset hcok hS (hcase.remaining hku hok c hc) hi hic i' hi'⟩

theorem splitCalls_tails (hk : 1 ≤ k) (hku : k < nUbatch) : ∀ {m : Nat} {a a' : LlamaBatchAllocr} {calls : List SplitCall},
    (∀ S, ∃ f, TailInv a k S f) → splitCalls (.equal sequential k) nUbatch m a = some (calls, a') →
      ∀ c ∈ calls, TailsTogether a.batch k c.idxs
  | 0, _, _, _, _, hcalls => by
      obtain ⟨rfl, -⟩ := Prod.mk.inj (some.inj hcalls)
      exact nofun
  | m + 1, a, a', calls, h, hcalls => by
      obtain ⟨c, a₁, rest, hcall, hrest, rfl⟩ := splitCalls_succ hcalls
      obtain ⟨hbatch, h', htails⟩ := splitCall_tails hk hku h hcall
      intro d hd
      rcases mem_cons.mp hd with rfl | hd
      · exact htails
      · exact hbatch ▸ splitCalls_tails hk hku h' hrest d hd

/-- The last `k` tokens of a sequence set are never split: a ubatch that has one of them has them all. -/
theorem splitEqual_tails_together {nPosPerEmbd : Nat} {inp : LlamaBatch} {nVocab : Nat} {memory : Option LlamaMemory}
    {nEmbd nSeqMax : Nat} {outputAll : Bool} (h : init nPosPerEmbd inp nVocab memory nEmbd nSeqMax outputAll = .ok a)
    (hk : 1 ≤ k) (hku : k < nUbatch) {m : Nat} {calls : List SplitCall}
    (hcalls : splitCalls (.equal sequential k) nUbatch m a = some (calls, a')) : ∀ c ∈ calls, TailsTogether a.batch k c.idxs :=
  splitCalls_tails hk hku (fun S => ⟨0, (init_eq_ok h).1 ▸ tailInv_reset a k S⟩) hcalls

/-- Five tokens of one sequence in ubatches of three: the last two go to a ubatch of their own. -/
theorem splitEqual_tails_together_two :
    let inp : LlamaBatch :=
      { nTokens := 5, token := some fun _ => 0, embd := none, pos := none, nSeqId := none, seqId := none, logits := none }
    ∃ a calls a', splitCalls (.equal true 2) 3 2 a = some (calls, a') ∧ calls.map SplitCall.idxs = [[0, 1, 2], [3, 4]] ∧
      a.batch = inp.fill none false ∧ ∀ c ∈ calls, TailsTogether a.batch 2 c.idxs := by
  intro inp
  have hinit : init 1 inp 1 none 1 1 false = .ok _ :=
    init_of_checks (by decide) (by decide) (by decide +kernel) (by decide +kernel)
  have hidxs : (splitCalls (.equal true 2) 3 2 ⟨1, inp.fill none false, 1, 1, [], 0, fun _ => false⟩).map
      (fun r => r.1.map SplitCall.idxs) = some [[0, 1, 2], [3, 4]] := by decide +kernel
  obtain ⟨⟨calls, a'⟩, hcalls, hmap⟩ := map_eq_some_iff.mp hidxs
  exact ⟨_, _, _, hcalls, hmap, rfl, splitEqual_tails_together hinit (by decide) (by decide) hcalls⟩

end Runs

end LlamaBatchAllocr

end LlamaCpp
