import LlamaCpp.Batch.SplitStep

/-!
# Splitting a whole batch

A caller splits a batch by calling one of the three splits until it returns an
empty ubatch.  `splitCalls` makes `m` such calls and records for each the batch
indices it chose and the ubatch it returned.

`SplitInv` says how the allocator relates to the indices emitted so far: they are
distinct, exactly the used ones, counted by `n_used`, and `out_ids` are those among
them with the output flag.  A call keeps it and emits at least one token, or finds
every token used (`splitCall_spec`); `split_exactly_once` follows by induction on
the tokens left.

For `split_equal` this needs that no call gathers a sequence set twice.  Two sets
that are gathered are disjoint, so only the empty set of tokens with
`n_seq_id = 0` can be: `split_equal_empty_sets` is a batch with two such tokens, of
which the first is emitted twice.
-/

namespace LlamaCpp.LlamaBatchAllocr

open List Option

inductive SplitKind where
  | simple
  | seq
  | equal (sequential : Bool) (nKeepTail : Nat)

/-- The call chosen by `kind`; `none` is a failed assertion. -/
def pick (kind : SplitKind) (a : LlamaBatchAllocr) (nUbatch : Nat) : Option Picked :=
  match kind with
  | .simple => some (a.pickSimple nUbatch)
  | .seq => some (a.pickSeq nUbatch)
  | .equal sequential nKeepTail => a.pickEqual nUbatch sequential nKeepTail

/-- The batch indices a call chose and the ubatch it returned. -/
structure SplitCall where
  idxs : List Nat
  ubatch : LlamaUbatch

def splitCall (kind : SplitKind) (nUbatch : Nat) (a : LlamaBatchAllocr) :
    Option (SplitCall × LlamaBatchAllocr) :=
  (pick kind a nUbatch).map fun p => (⟨p.idxs, p.ubatch.1⟩, p.ubatch.2)

/-- `m` calls, one after the other. -/
def splitCalls (kind : SplitKind) (nUbatch : Nat) :
    Nat → LlamaBatchAllocr → Option (List SplitCall × LlamaBatchAllocr)
  | 0, a => some ([], a)
  | m + 1, a =>
    (splitCall kind nUbatch a).bind fun (c, a') =>
      (splitCalls kind nUbatch m a').map fun (cs, a'') => (c :: cs, a'')

/-- The indices emitted by a list of calls, in emission order. -/
def emitted (calls : List SplitCall) : List Nat := calls.flatMap SplitCall.idxs

namespace SplitKind

/-- The tail is shorter than a ubatch, and a sequential split sees no coupled
sequences. -/
def Ok (kind : SplitKind) (batch : FilledBatch) (nUbatch : Nat) : Prop :=
  match kind with
  | .equal sequential nKeepTail => nKeepTail < nUbatch ∧ (sequential = true → batch.hasCpl = false)
  | _ => True

/-- The length of the tail that is not split; only `split_equal` has one. -/
def nKeepTail : SplitKind → Nat
  | .equal _ nKeepTail => nKeepTail
  | _ => 0

/-- The next call gathers no sequence set twice. -/
def GathersOnce (kind : SplitKind) (nUbatch : Nat) (a : LlamaBatchAllocr) : Prop :=
  match kind with
  | .equal sequential _ => (a.gatherSeqSets nUbatch sequential).Nodup
  | _ => True

/-- What the calls of one kind keep about the used tokens. -/
def UsedOk (kind : SplitKind) (a : LlamaBatchAllocr) : Prop :=
  match kind with
  | .simple => Front a
  | .seq => True
  | .equal .. => ∀ S, Down a S

end SplitKind

variable {kind : SplitKind} {nUbatch : Nat}

/-- One call chooses nothing, and then every token is used, or it picks tokens. -/
theorem pick_spec {a : LlamaBatchAllocr} (hok : kind.Ok a.batch nUbatch) (hused : kind.UsedOk a)
    (honce : kind.GathersOnce nUbatch a) :
    (pick kind a nUbatch = some a.pickedNone ∧ ∀ i < a.batch.nTokens, a.used i = true) ∨
      ∃ p, pick kind a nUbatch = some p ∧ Picks a (fun _ => True) p ∧ kind.UsedOk p.allocr := by
  cases kind with
  | simple =>
    rcases picks_simple nUbatch (fun _ => True) hused with ⟨hp, hall⟩ | ⟨hp, hfront⟩
    · exact .inl ⟨congrArg some hp, hall⟩
    · exact .inr ⟨_, rfl, hp, hfront⟩
  | seq =>
    rcases picks_seq a nUbatch (fun _ => True) with ⟨hp, hall⟩ | hp
    · exact .inl ⟨congrArg some hp, hall⟩
    · exact .inr ⟨_, rfl, hp, trivial⟩
  | equal sequential nKeepTail =>
    have hdup : (a.gatherSeqSets nUbatch sequential).Pairwise fun S T => S = T → ¬True :=
      honce.imp fun hne heq => absurd heq hne
    rcases picks_equal hok.2 hok.1 (fun S _ => hused S) hdup with hdone | ⟨p, heq, hp, hdown⟩
    · exact .inl hdone
    · exact .inr ⟨p, heq, hp, fun S => hdown S trivial⟩

/-! ## One call -/

/-- The allocator after the indices `E` have been emitted. -/
structure SplitInv (kind : SplitKind) (E : List Nat) (a : LlamaBatchAllocr) : Prop where
  nodup : E.Nodup
  mem : ∀ i, i ∈ E ↔ i < a.batch.nTokens ∧ a.used i = true
  nUsed : a.nUsed = E.length
  outIds : a.outIds = E.filter fun i => a.batch.logits i ≠ 0
  usedOk : kind.UsedOk a

theorem splitInv_splitReset (kind : SplitKind) {a : LlamaBatchAllocr} (h : a.splitReset = a) :
    SplitInv kind [] a := by
  rw [← h]
  refine ⟨.nil, by simp [splitReset], rfl, rfl, ?_⟩
  cases kind with
  | simple => exact fun i j _ hj => by simp [splitReset] at hj
  | seq => trivial
  | equal => exact fun S i j _ _ _ _ hj => by simp [splitReset] at hj

/-- Packing the tokens of a pick leaves the used tokens alone. -/
theorem SplitInv.picks {E : List Nat} {a : LlamaBatchAllocr} {p : Picked} (h : SplitInv kind E a)
    (hp : Picks a (fun _ => True) p) (hused : kind.UsedOk p.allocr) :
    p.ubatch.1.nTokens = p.idxs.length ∧ p.ubatch.2.batch = a.batch ∧ SplitInv kind (E ++ p.idxs) p.ubatch.2 := by
  obtain ⟨used, nUsed, hframe⟩ := hp.frame
  have hu : p.ubatch = p.allocr.ubatchAdd p.idxs p.nSeqs p.equalSeqs := if_neg hp.nSeqs_ne
  have hbatch : p.allocr.batch = a.batch := by rw [hframe]
  have hout : p.allocr.outIds = a.outIds := by rw [hframe]
  rw [hu]
  refine ⟨rfl, hbatch, ?_⟩
  exact
    { nodup := by
        have hne : p.idxs.Nodup := hp.order.imp fun hlt heq => by
          subst heq
          exact absurd (hlt trivial (.inl rfl)) (lt_irrefl _)
        refine nodup_append.mpr ⟨h.nodup, hne, fun i hi j hj hij => ?_⟩
        have hui := hp.fresh j hj trivial
        rw [← hij, ((h.mem i).mp hi).2] at hui
        cases hui
      mem := fun i => by
        simp only [ubatchAdd, hbatch, List.mem_append, h.mem, hp.used i trivial, Bool.or_eq_true, decide_eq_true_eq]
        constructor
        · rintro (⟨hlt, hu⟩ | hi)
          · exact ⟨hlt, .inl hu⟩
          · exact ⟨hp.lt i hi, .inr hi⟩
        · rintro ⟨hlt, hu | hi⟩
          · exact .inl ⟨hlt, hu⟩
          · exact .inr hi
      nUsed := by
        simp only [ubatchAdd, hp.nUsed, h.nUsed, length_append]
      outIds := by
        simp only [ubatchAdd, hbatch, hout, h.outIds, filter_append]
      usedOk := by
        cases kind with
        | simple => exact hused
        | seq => trivial
        | equal => exact hused }

theorem splitCall_spec {E : List Nat} {a : LlamaBatchAllocr} (h : SplitInv kind E a)
    (hok : kind.Ok a.batch nUbatch) (honce : kind.GathersOnce nUbatch a) :
    ∃ c a', splitCall kind nUbatch a = some (c, a') ∧
      (c.ubatch.nTokens = 0 ∧ (∀ i < a.batch.nTokens, a.used i = true) ∨
        c.ubatch.nTokens = c.idxs.length ∧ c.idxs ≠ [] ∧ a'.batch = a.batch ∧ SplitInv kind (E ++ c.idxs) a') := by
  rcases pick_spec hok h.usedOk honce with ⟨heq, hall⟩ | ⟨p, heq, hp, hused⟩
  · exact ⟨_, _, by rw [splitCall, heq]; rfl, .inl ⟨rfl, hall⟩⟩
  · obtain ⟨hlen, hbatch, hinv⟩ := h.picks hp hused
    exact ⟨_, _, by rw [splitCall, heq]; rfl, .inr ⟨hlen, hp.ne, hbatch, hinv⟩⟩

/-! ## All calls -/

/-- From any state of a run, the remaining calls emit the remaining indices. -/
theorem splitCalls_complete : ∀ (r : Nat) {E : List Nat}
    {a : LlamaBatchAllocr}, SplitInv kind E a → a.batch.nTokens ≤ E.length + r →
    kind.Ok a.batch nUbatch →
    (∀ m calls a', splitCalls kind nUbatch m a = some (calls, a') → kind.GathersOnce nUbatch a') →
    ∃ m ≤ r, ∃ calls aEnd last aLast,
      splitCalls kind nUbatch m a = some (calls, aEnd) ∧
      splitCall kind nUbatch aEnd = some (last, aLast) ∧ last.ubatch.nTokens = 0 ∧
      (∀ c ∈ calls, c.ubatch.nTokens = c.idxs.length ∧ c.idxs ≠ []) ∧
      (∀ i < a.batch.nTokens, aEnd.used i = true) ∧
      ∀ k ≤ m, ∃ ak, splitCalls kind nUbatch k a = some (calls.take k, ak) ∧
        ak.batch = a.batch ∧ SplitInv kind (E ++ emitted (calls.take k)) ak := by
  intro r
  induction r with
  | zero =>
    intro E a h hlen hok honce
    obtain ⟨c, a', hcall, ⟨hzero, hall⟩ | ⟨-, hne, hbatch, hinv⟩⟩ :=
      splitCall_spec h hok (honce 0 [] a rfl)
    · refine ⟨0, le_rfl, [], a, c, a', rfl, hcall, hzero, by simp, hall, fun k hk => ?_⟩
      obtain rfl := Nat.le_zero.mp hk
      exact ⟨a, rfl, rfl, by simpa [emitted] using h⟩
    · -- a further index would not fit below `n_tokens`
      have hsub : (E ++ c.idxs).Subperm (List.range a'.batch.nTokens) :=
        subperm_of_subset hinv.nodup fun i hi =>
          mem_range.mpr ((hinv.mem i).mp hi).1
      have hle := hsub.length_le
      have hpos := length_pos_iff.mpr hne
      rw [length_append, length_range, hbatch] at hle
      omega
  | succ r ih =>
    intro E a h hlen hok honce
    obtain ⟨c, a', hcall, ⟨hzero, hall⟩ | ⟨hlenc, hne, hbatch, hinv⟩⟩ :=
      splitCall_spec h hok (honce 0 [] a rfl)
    · refine ⟨0, Nat.zero_le _, [], a, c, a', rfl, hcall, hzero, by simp, hall, fun k hk => ?_⟩
      obtain rfl := Nat.le_zero.mp hk
      exact ⟨a, rfl, rfl, by simpa [emitted] using h⟩
    · have hcons : ∀ m calls a'', splitCalls kind nUbatch m a' = some (calls, a'') →
          splitCalls kind nUbatch (m + 1) a = some (c :: calls, a'') := by
        intro m calls a'' heq
        rw [splitCalls, hcall, bind_some]
        dsimp only
        rw [heq, map_some]
      have hpos := length_pos_iff.mpr hne
      obtain ⟨m, hm, calls, aEnd, last, aLast, hcalls, hlast, hzero, hlens, hall, hpre⟩ :=
        ih hinv (by rw [hbatch, length_append]; omega) (hbatch ▸ hok)
          fun m calls a'' heq => honce _ _ _ (hcons m calls a'' heq)
      refine ⟨m + 1, Nat.succ_le_succ hm, c :: calls, aEnd, last, aLast, hcons _ _ _ hcalls,
        hlast, hzero, fun d hd => ?_, hbatch ▸ hall, fun k hk => ?_⟩
      · rcases mem_cons.mp hd with rfl | hd
        · exact ⟨hlenc, hne⟩
        · exact hlens d hd
      · cases k with
        | zero => exact ⟨a, rfl, rfl, by simpa [emitted] using h⟩
        | succ k =>
          obtain ⟨ak, hak, hbk, hik⟩ := hpre k (Nat.succ_le_succ_iff.mp hk)
          refine ⟨ak, hcons _ _ _ hak, hbk.trans hbatch, ?_⟩
          simpa [emitted, append_assoc] using hik

/-- The calls end with an empty ubatch after at most `n_tokens` others, none of
them empty; together they emit every batch index once; and after each of them
`n_used` counts the emitted tokens and `out_ids` lists those with the output flag,
in emission order. -/
def ExactlyOnce (kind : SplitKind) (nUbatch : Nat) (a : LlamaBatchAllocr) : Prop :=
  ∃ m ≤ a.batch.nTokens, ∃ calls aEnd last aLast,
    splitCalls kind nUbatch m a = some (calls, aEnd) ∧
    splitCall kind nUbatch aEnd = some (last, aLast) ∧ last.ubatch.nTokens = 0 ∧
    (∀ c ∈ calls, c.ubatch.nTokens ≠ 0 ∧ c.ubatch.nTokens = c.idxs.length) ∧
    (emitted calls).Perm (List.range a.batch.nTokens) ∧
    ∀ k ≤ m, ∃ ak, splitCalls kind nUbatch k a = some (calls.take k, ak) ∧
      ak.nUsed = (emitted (calls.take k)).length ∧
      ak.outIds = (emitted (calls.take k)).filter fun i => a.batch.logits i ≠ 0

/-- No call of the run gathers a sequence set twice. -/
def GathersOnceAlong (kind : SplitKind) (nUbatch : Nat) (a : LlamaBatchAllocr) : Prop :=
  ∀ m calls a', splitCalls kind nUbatch m a = some (calls, a') → kind.GathersOnce nUbatch a'

theorem exactlyOnce_of_gathersOnceAlong {a : LlamaBatchAllocr} (hreset : a.splitReset = a)
    (hok : kind.Ok a.batch nUbatch) (honce : GathersOnceAlong kind nUbatch a) :
    ExactlyOnce kind nUbatch a := by
  obtain ⟨m, hm, calls, aEnd, last, aLast, hcalls, hlast, hzero, hlens, hall, hpre⟩ :=
    splitCalls_complete a.batch.nTokens (splitInv_splitReset kind hreset) (by simp) hok honce
  refine ⟨m, hm, calls, aEnd, last, aLast, hcalls, hlast, hzero, fun c hc => ?_, ?_, fun k hk => ?_⟩
  · obtain ⟨hlen, hne⟩ := hlens c hc
    exact ⟨hlen ▸ (length_pos_iff.mpr hne).ne', hlen⟩
  · obtain ⟨ak, hak, hbk, hik⟩ := hpre m le_rfl
    rw [hcalls] at hak
    obtain ⟨htake, rfl⟩ := Prod.mk.inj (some.inj hak)
    rw [nil_append, ← htake] at hik
    refine (perm_ext_iff_of_nodup hik.nodup nodup_range).mpr fun i => ?_
    rw [hik.mem, mem_range, hbk]
    exact ⟨fun hi => hi.1, fun hi => ⟨hi, hall i hi⟩⟩
  · obtain ⟨ak, hak, hbk, hik⟩ := hpre k hk
    rw [nil_append] at hik
    exact ⟨ak, hak, hik.nUsed, hbk ▸ hik.outIds⟩

/-! ## When no set is gathered twice -/

/-- Two gathered sets are disjoint, so only the empty set can be gathered twice. -/
theorem gathersOnce_of_seqSet_ne {a : LlamaBatchAllocr}
    (h : ∀ i < a.batch.nTokens, a.batch.seqSet i ≠ ∅) : kind.GathersOnce nUbatch a := by
  cases kind with
  | simple => trivial
  | seq => trivial
  | equal sequential nKeepTail =>
    refine (gatherSeqSets_disjoint a nUbatch sequential).imp_of_mem fun {S T} hS _ hd heq => ?_
    obtain ⟨i, hi, -, hset⟩ := exists_unused_of_mem_gatherSeqSets a nUbatch sequential hS
    subst heq
    exact h i hi (hset.trans (disjoint_self.mp hd))

/-- A call leaves the batch alone, and `split_equal` without a tail that chooses
distinct tokens has gathered no set twice. -/
theorem splitCall_equal {a a' : LlamaBatchAllocr} {nKeepTail : Nat} {sequential : Bool} {c : SplitCall}
    (hok : (SplitKind.equal sequential nKeepTail).Ok a.batch nUbatch)
    (h : splitCall (.equal sequential nKeepTail) nUbatch a = some (c, a')) : a'.batch = a.batch ∧
      (c.ubatch.nTokens = 0 → a' = a ∧ c.idxs = [] ∧ a.gatherSeqSets nUbatch sequential = []) ∧
      (nKeepTail = 0 → c.idxs.Nodup → (a.gatherSeqSets nUbatch sequential).Nodup) := by
  obtain ⟨p, hp, heq⟩ := map_eq_some_iff.mp h
  obtain ⟨rfl, rfl⟩ := Prod.mk.inj heq
  have hnd : nKeepTail = 0 → p.idxs.Nodup → (a.gatherSeqSets nUbatch sequential).Nodup := by
    rintro rfl hnd
    exact gatherSeqSets_nodup_of_idxs_nodup hok.2 hp hnd
  by_cases hnil : a.gatherSeqSets nUbatch sequential = []
  · rw [pick, pickEqual_eq_none hnil] at hp
    cases hp
    exact ⟨rfl, fun _ => ⟨rfl, rfl, hnil⟩, hnd⟩
  · obtain ⟨full, put, cs, a₁, hpick, hkept⟩ := pickEqual_eq hok.2 hok.1 hnil
    obtain rfl := some.inj (hpick.symm.trans hp)
    -- with no set called clean, the effect needs nothing of the state
    have hpicks : Picks a (fun _ => False) _ := hkept.picks
      (gatherSeqSets_disjoint a nUbatch sequential)
      (pairwise_of_forall fun _ _ _ => not_false) fun _ hclean => hclean.elim
    obtain ⟨used, nUsed, hframe⟩ := hpicks.frame
    have hu : Picked.ubatch ⟨cs.flatMap SeqCursor.idxs, cs.length, true, a₁⟩ =
        a₁.ubatchAdd (cs.flatMap SeqCursor.idxs) cs.length true := if_neg hpicks.nSeqs_ne
    dsimp only at hframe
    have hbatch : a₁.batch = a.batch := by rw [hframe]
    rw [hu]
    refine ⟨hbatch, fun hzero => ?_, hnd⟩
    exact absurd (length_eq_zero_iff.mp hzero) hpicks.ne

theorem splitCalls_succ {m : Nat} {a a'' : LlamaBatchAllocr} {calls : List SplitCall}
    (h : splitCalls kind nUbatch (m + 1) a = some (calls, a'')) :
    ∃ c a' rest, splitCall kind nUbatch a = some (c, a') ∧
      splitCalls kind nUbatch m a' = some (rest, a'') ∧ calls = c :: rest := by
  rw [splitCalls] at h
  obtain ⟨⟨c, a'⟩, hcall, h⟩ := bind_eq_some_iff.mp h
  obtain ⟨⟨rest, a₂⟩, hrest, heq⟩ := map_eq_some_iff.mp h
  obtain ⟨rfl, rfl⟩ := Prod.mk.inj heq
  exact ⟨c, a', rest, hcall, hrest, rfl⟩

/-- Once a call has returned the empty ubatch, nothing changes any more. -/
theorem splitCalls_done {nUbatch nKeepTail : Nat} {sequential : Bool} {a aLast : LlamaBatchAllocr}
    {last : SplitCall} (hok : (SplitKind.equal sequential nKeepTail).Ok a.batch nUbatch)
    (hlast : splitCall (.equal sequential nKeepTail) nUbatch a = some (last, aLast))
    (hzero : last.ubatch.nTokens = 0) : ∀ {m : Nat} {calls : List SplitCall}
      {a' : LlamaBatchAllocr},
      splitCalls (.equal sequential nKeepTail) nUbatch m a = some (calls, a') → a' = a
  | 0, _, _, h => (Prod.mk.inj (Option.some.inj h)).2.symm
  | m + 1, _, _, h => by
      obtain ⟨c, a₁, rest, hcall, hrest, -⟩ := splitCalls_succ h
      obtain ⟨-, rfl⟩ := Prod.mk.inj (some.inj (hcall.symm.trans hlast))
      obtain ⟨rfl, -⟩ := (splitCall_equal hok hlast).2.1 hzero
      exact splitCalls_done hok hlast hzero hrest

/-- A run of `split_equal` without a tail that emits distinct indices has gathered
no set twice. -/
theorem gathersOnceAlong_of_emitted_nodup {nUbatch : Nat} {sequential : Bool} :
    ∀ {m : Nat} {a aEnd aLast : LlamaBatchAllocr} {calls : List SplitCall} {last : SplitCall},
      (SplitKind.equal sequential 0).Ok a.batch nUbatch →
      splitCalls (.equal sequential 0) nUbatch m a = some (calls, aEnd) →
      splitCall (.equal sequential 0) nUbatch aEnd = some (last, aLast) →
      last.ubatch.nTokens = 0 → (emitted calls).Nodup →
      GathersOnceAlong (.equal sequential 0) nUbatch a
  | 0, a, _, _, _, _, hok, hcalls, hlast, hzero, _ => by
      obtain ⟨-, rfl⟩ := Prod.mk.inj (some.inj hcalls)
      intro j calls' a' h
      obtain rfl := splitCalls_done hok hlast hzero h
      rw [SplitKind.GathersOnce, ((splitCall_equal hok hlast).2.1 hzero).2.2]
      exact .nil
  | m + 1, a, _, _, _, _, hok, hcalls, hlast, hzero, hnd => by
      obtain ⟨c, a₁, rest, hcall, hrest, rfl⟩ := splitCalls_succ hcalls
      obtain ⟨hbatch, -, hgather⟩ := splitCall_equal hok hcall
      rw [emitted, flatMap_cons, nodup_append] at hnd
      intro j calls' a' h
      cases j with
      | zero =>
        obtain ⟨-, rfl⟩ := Prod.mk.inj (some.inj h)
        exact hgather rfl hnd.1
      | succ j =>
        obtain ⟨c', a₂, rest', hcall', hrest', -⟩ := splitCalls_succ h
        obtain ⟨-, rfl⟩ := Prod.mk.inj (some.inj (hcall'.symm.trans hcall))
        exact gathersOnceAlong_of_emitted_nodup (hbatch ▸ hok) hrest hlast hzero hnd.2.1 _ _ _
          hrest'

/-- When every token has a sequence, no set is ever gathered twice. -/
theorem gathersOnceAlong_of_seqSet_ne {a : LlamaBatchAllocr} (hok : kind.Ok a.batch nUbatch)
    (h : ∀ i < a.batch.nTokens, a.batch.seqSet i ≠ ∅) : GathersOnceAlong kind nUbatch a := by
  cases kind with
  | simple | seq => exact fun _ _ _ _ => trivial
  | equal sequential nKeepTail =>
    intro m
    induction m generalizing a with
    | zero =>
      intro calls a' hcalls
      obtain ⟨-, rfl⟩ := Prod.mk.inj (some.inj hcalls)
      exact gathersOnce_of_seqSet_ne h
    | succ m ih =>
      intro calls a' hcalls
      obtain ⟨c, a₁, rest, hcall, hrest, -⟩ := splitCalls_succ hcalls
      obtain ⟨hbatch, -⟩ := splitCall_equal hok hcall
      exact ih (hbatch ▸ h) (hbatch ▸ hok) _ _ hrest

section Claim

variable {nPosPerEmbd : Nat} {inp : LlamaBatch} {nVocab : Nat} {memory : Option LlamaMemory}
  {nEmbd nSeqMax : Nat} {outputAll : Bool} {a : LlamaBatchAllocr}

/-- Splitting an accepted batch loses and duplicates nothing as long as no call of
`split_equal` gathers a sequence set twice, and without a rollback tail only then. -/
theorem split_exactly_once
    (h : init nPosPerEmbd inp nVocab memory nEmbd nSeqMax outputAll = .ok a) (kind : SplitKind)
    (nUbatch : Nat) (hok : kind.Ok a.batch nUbatch) :
    (GathersOnceAlong kind nUbatch a → ExactlyOnce kind nUbatch a) ∧
      (kind.nKeepTail = 0 → ExactlyOnce kind nUbatch a → GathersOnceAlong kind nUbatch a) := by
  refine ⟨exactlyOnce_of_gathersOnceAlong (init_eq_ok h).1 hok, fun htail hexact => ?_⟩
  obtain ⟨m, -, calls, aEnd, last, aLast, hcalls, hlast, hzero, -, hperm, -⟩ := hexact
  cases kind with
  | simple | seq => exact fun _ _ _ _ => trivial
  | equal sequential nKeepTail =>
    cases htail
    exact gathersOnceAlong_of_emitted_nodup hok hcalls hlast hzero
      (hperm.nodup_iff.mpr nodup_range)

/-- Two sequences of different length, split without and with a rollback tail. -/
theorem split_exactly_once_two_seqs :
    let inp : LlamaBatch :=
      { nTokens := 5, token := some fun _ => 0, embd := none, pos := none
        nSeqId := some fun _ => 1, seqId := some fun i _ => if i < 3 then 0 else 1
        logits := some fun _ => 1 }
    ∃ a, init 1 inp 1 none 1 2 false = .ok a ∧ ExactlyOnce (.equal false 0) 3 a ∧
      ExactlyOnce (.equal true 2) 3 a := by
  intro inp
  have h : init 1 inp 1 none 1 2 false = .ok _ :=
    init_of_checks (by decide) (by decide) (by decide +kernel) (by decide +kernel)
  refine ⟨_, h, ?_, ?_⟩
  · exact (split_exactly_once h (.equal false 0) 3 ⟨by decide, by decide⟩).1
      (gathersOnceAlong_of_seqSet_ne ⟨by decide, by decide⟩ (by decide +kernel))
  · exact (split_exactly_once h (.equal true 2) 3 ⟨by decide, by decide +kernel⟩).1
      (gathersOnceAlong_of_seqSet_ne ⟨by decide, by decide +kernel⟩ (by decide +kernel))

end Claim

/-- Two tokens with `n_seq_id = 0`, of which `split_equal` emits the first twice. -/
theorem split_equal_empty_sets :
    ¬ ∀ (nPosPerEmbd : Nat) (inp : LlamaBatch) (nVocab : Nat) (memory : Option LlamaMemory)
      (nEmbd nSeqMax : Nat) (outputAll : Bool) (a : LlamaBatchAllocr),
      init nPosPerEmbd inp nVocab memory nEmbd nSeqMax outputAll = .ok a →
      ∀ (kind : SplitKind) (nUbatch : Nat), kind.Ok a.batch nUbatch →
        ExactlyOnce kind nUbatch a := by
  intro h
  have hexact := h 1
    { nTokens := 2, token := some fun _ => 0, embd := none, pos := none
      nSeqId := some fun _ => 0, seqId := some fun _ _ => 0, logits := none }
    1 none 1 1 false _
    (init_of_checks (by decide) (by decide) (by decide +kernel) (by decide +kernel))
    (.equal false 0) 2 ⟨by decide, by decide⟩
  obtain ⟨m, -, calls, aEnd, last, aLast, hcalls, hlast, hzero, -, hperm, -⟩ := hexact
  have honce := gathersOnceAlong_of_emitted_nodup ⟨by decide, by decide⟩ hcalls hlast hzero
    (hperm.nodup_iff.mpr nodup_range)
  exact absurd (show List.Nodup _ from honce 0 [] _ rfl) (by decide +kernel)

end LlamaCpp.LlamaBatchAllocr
