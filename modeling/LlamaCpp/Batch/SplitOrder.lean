import LlamaCpp.Batch.SplitRuns

/-!
# The order of the tokens of a sequence

A token attends to the earlier tokens of its sequences, so these have to be
computed before it.  `SeqOrdered` says that a list of emitted tokens has
non-decreasing positions in every sequence.

`init` checks that the positions of a sequence do not decrease in batch order, and
a call takes the tokens of one sequence in batch order.  The order is lost only
when a call takes a token and leaves behind an unused one of the same sequence with
a smaller position (`Overtakes`): `split_seq` skips tokens whose set is not a
subset of the current one, `split_equal` skips tokens whose set overlaps a gathered
one without being equal to it.  `split_seqOrdered` says that this is the only way,
and that it never happens in a batch whose sets are nested.  `init` accepts other
batches too: `split_equal_overtakes` is one.
-/

namespace LlamaCpp

open List Option

namespace FilledBatch

/-- Tokens `i` and `j` have a sequence in common. -/
def Shares (batch : FilledBatch) (i j : Nat) : Prop :=
  ¬Disjoint (batch.seqSet i) (batch.seqSet j)

instance (batch : FilledBatch) (i j : Nat) : Decidable (batch.Shares i j) :=
  inferInstanceAs (Decidable (¬_))

theorem shares_iff (batch : FilledBatch) (i j : Nat) :
    batch.Shares i j ↔ ∃ s, s ∈ batch.seqSet i ∧ s ∈ batch.seqSet j :=
  Finset.not_disjoint_iff

theorem Shares.symm {batch : FilledBatch} {i j : Nat} (h : batch.Shares i j) : batch.Shares j i := fun hd => h hd.symm

theorem Shares.left_ne {batch : FilledBatch} {i j : Nat} (h : batch.Shares i j) : batch.seqSet i ≠ ∅ := by
  obtain ⟨s, hs, -⟩ := (shares_iff ..).mp h
  exact Finset.ne_empty_of_mem hs

/-- The positions of a sequence do not decrease in batch order. -/
def PosMono (batch : FilledBatch) : Prop :=
  ∀ i j, i < j → j < batch.nTokens → batch.Shares i j → batch.pos i ≤ batch.pos j

/-- Of two tokens that share a sequence, the later one has the smaller set. -/
def Nested (batch : FilledBatch) : Prop :=
  ∀ i j, i < j → j < batch.nTokens → batch.Shares i j → batch.seqSet j ⊆ batch.seqSet i

instance (batch : FilledBatch) : Decidable batch.Nested :=
  decidable_of_iff (∀ j < batch.nTokens, ∀ i < j, batch.Shares i j →
      batch.seqSet j ⊆ batch.seqSet i)
    ⟨fun h i j hij hj => h j hj i hij, fun h j hj i hij => h i j hij hj⟩

/-- The tokens of every sequence have non-decreasing positions. -/
def SeqOrdered (batch : FilledBatch) (E : List Nat) : Prop :=
  ∀ s, ((E.filter fun i => s ∈ batch.seqSet i).map batch.pos).Pairwise (· ≤ ·)

theorem seqOrdered_iff (batch : FilledBatch) (E : List Nat) :
    batch.SeqOrdered E ↔ E.Pairwise fun i j => batch.Shares i j → batch.pos i ≤ batch.pos j := by
  simp only [SeqOrdered, pairwise_map, pairwise_filter, decide_eq_true_eq, shares_iff]
  constructor
  · intro h
    refine pairwise_iff_forall_sublist.mpr fun hsub => ?_
    rintro ⟨s, hi, hj⟩
    exact (h s).forall_sublist hsub hi hj
  · intro h s
    exact h.imp fun hij hi hj => hij ⟨s, hi, hj⟩

end FilledBatch

namespace LlamaBatchAllocr

/-- The splits that group tokens by their sequence sets. -/
def SplitKind.BySet : SplitKind → Prop
  | .simple => False
  | .seq => True
  | .equal sequential _ => sequential = false

/-- A call that chooses `idxs` leaves behind an unused token of a sequence of one of
them, at a smaller position. -/
def Overtakes (a : LlamaBatchAllocr) (idxs : List Nat) : Prop :=
  ∃ i ∈ idxs, ∃ j < a.batch.nTokens, a.used j = false ∧ j ∉ idxs ∧ a.batch.Shares i j ∧
    a.batch.pos j < a.batch.pos i

/-- No call of the run overtakes a token. -/
def NoOvertaking (kind : SplitKind) (nUbatch : Nat) (a : LlamaBatchAllocr) : Prop :=
  ∀ m calls a' c a'', splitCalls kind nUbatch m a = some (calls, a') →
    splitCall kind nUbatch a' = some (c, a'') → ¬Overtakes a' c.idxs

/-- The run reaches the empty ubatch. -/
def Completes (kind : SplitKind) (nUbatch : Nat) (a : LlamaBatchAllocr) : Prop :=
  ∃ m calls aEnd last aLast, splitCalls kind nUbatch m a = some (calls, aEnd) ∧
    splitCall kind nUbatch aEnd = some (last, aLast) ∧ last.ubatch.nTokens = 0

/-! ## One call -/

/-- The used tokens of every nonempty set are its first ones, where it matters. -/
def SplitKind.DownSets (kind : SplitKind) (a : LlamaBatchAllocr) : Prop :=
  match kind with
  | .equal .. => ∀ S, S ≠ ∅ → Down a S
  | _ => True

/-- The effect of one call on the tokens that have a sequence. -/
structure CallOk (a : LlamaBatchAllocr) (c : SplitCall) (a' : LlamaBatchAllocr) : Prop where
  batch : a'.batch = a.batch
  fresh : ∀ i ∈ c.idxs, a.batch.seqSet i ≠ ∅ → a.used i = false
  lt : ∀ i ∈ c.idxs, i < a.batch.nTokens
  used : ∀ i, a.batch.seqSet i ≠ ∅ → a'.used i = (a.used i || decide (i ∈ c.idxs))
  order : c.idxs.Pairwise fun i j => a.batch.Shares i j → i < j
  done : c.ubatch.nTokens = 0 → c.idxs = [] ∧ a' = a ∧ ∀ i < a.batch.nTokens, a.used i = true

theorem callOk_pickedNone {a : LlamaBatchAllocr} (hall : ∀ i < a.batch.nTokens, a.used i = true) :
    CallOk a ⟨[], a.pickedNone.ubatch.1⟩ a.pickedNone.ubatch.2 where
  batch := rfl
  fresh := by simp
  lt := by simp
  used := by simp [pickedNone, Picked.ubatch]
  order := .nil
  done := fun _ => ⟨rfl, rfl, hall⟩

theorem Picks.callOk {a : LlamaBatchAllocr} {p : Picked} (hp : Picks a (fun S => S ≠ ∅) p) :
    CallOk a ⟨p.idxs, p.ubatch.1⟩ p.ubatch.2 := by
  obtain ⟨used, nUsed, hframe⟩ := hp.frame
  have hu : p.ubatch = p.allocr.ubatchAdd p.idxs p.nSeqs p.equalSeqs := if_neg hp.nSeqs_ne
  rw [hu]
  exact
    { batch := by simp only [ubatchAdd, hframe]
      fresh := hp.fresh
      lt := hp.lt
      used := hp.used
      order := hp.order.imp fun h hshare => h (FilledBatch.Shares.left_ne hshare) (.inr hshare)
      done := fun hzero => absurd (length_eq_zero_iff.mp hzero) hp.ne }

/-- Packing leaves the used tokens alone. -/
theorem Picked.down_ubatch {p : Picked} {S : Finset SeqId} (h : Down p.allocr S) : Down p.ubatch.2 S := by
  unfold Picked.ubatch
  split
  · exact h
  · exact h

variable {kind : SplitKind} {c : SplitCall}

theorem splitCall_ok {a : LlamaBatchAllocr} {nUbatch : Nat} (hkind : kind.BySet)
    (hok : kind.Ok a.batch nUbatch) (hdown : kind.DownSets a) :
    ∃ c a', splitCall kind nUbatch a = some (c, a') ∧ CallOk a c a' ∧ kind.DownSets a' := by
  cases kind with
  | simple => exact hkind.elim
  | seq =>
    rcases picks_seq a nUbatch (fun S => S ≠ ∅) with ⟨heq, hall⟩ | hp
    · exact ⟨_, _, by rw [splitCall, pick, heq]; rfl, callOk_pickedNone hall, trivial⟩
    · exact ⟨_, _, rfl, hp.callOk, trivial⟩
  | equal sequential nKeepTail =>
    have hdup : (a.gatherSeqSets nUbatch sequential).Pairwise fun S T => S = T → ¬S ≠ ∅ :=
      (gatherSeqSets_disjoint a nUbatch sequential).imp fun hd heq hne =>
        hne (disjoint_self.mp (heq ▸ hd))
    rcases picks_equal hok.2 hok.1 hdown hdup with ⟨heq, hall⟩ | ⟨p, heq, hp, hdown'⟩
    · exact ⟨_, _, by rw [splitCall, pick, heq]; rfl, callOk_pickedNone hall, hdown⟩
    · exact ⟨_, _, by rw [splitCall, pick, heq]; rfl, hp.callOk, fun S hS => Picked.down_ubatch (hdown' S hS)⟩

theorem splitCalls_ok {kind : SplitKind} {nUbatch : Nat} (hkind : kind.BySet) :
    ∀ {m : Nat} {a a' : LlamaBatchAllocr} {calls : List SplitCall},
      kind.Ok a.batch nUbatch → kind.DownSets a →
      splitCalls kind nUbatch m a = some (calls, a') → a'.batch = a.batch ∧ kind.DownSets a'
  | 0, _, _, _, _, hdown, h => by
      obtain ⟨-, rfl⟩ := Prod.mk.inj (some.inj h)
      exact ⟨rfl, hdown⟩
  | m + 1, a, a', calls, hok, hdown, h => by
      obtain ⟨c, a₁, rest, hcall, hrest, rfl⟩ := splitCalls_succ h
      obtain ⟨c', a₁', hcall', hcok, hdown'⟩ := splitCall_ok hkind hok hdown
      obtain ⟨rfl, rfl⟩ := Prod.mk.inj (some.inj (hcall'.symm.trans hcall))
      obtain ⟨hbatch, hdown''⟩ := splitCalls_ok hkind (hcok.batch ▸ hok) hdown' hrest
      exact ⟨hbatch.trans hcok.batch, hdown''⟩

/-! ## Runs without overtaking -/

/-- Every emitted token comes before the tokens still unused. -/
def Before (a : LlamaBatchAllocr) (E : List Nat) : Prop :=
  ∀ i ∈ E, ∀ j < a.batch.nTokens, a.used j = false → a.batch.Shares i j →
    a.batch.pos i ≤ a.batch.pos j

theorem NoOvertaking.tail {nUbatch : Nat} {a a' : LlamaBatchAllocr} (h : NoOvertaking kind nUbatch a)
    (hcall : splitCall kind nUbatch a = some (c, a')) : NoOvertaking kind nUbatch a' := by
  intro m calls b d b' hcalls hd
  refine h (m + 1) (c :: calls) b d b' ?_ hd
  rw [splitCalls, hcall, bind_some]
  dsimp only
  rw [hcalls, map_some]

/-- A call that overtakes nothing extends an ordered list of emitted tokens. -/
theorem CallOk.ordered {a a' : LlamaBatchAllocr} {E : List Nat} (h : CallOk a c a')
    (hmono : a.batch.PosMono) (hE : a.batch.SeqOrdered E) (hbefore : Before a E)
    (hno : ¬Overtakes a c.idxs) : a'.batch.SeqOrdered (E ++ c.idxs) ∧ Before a' (E ++ c.idxs) := by
  rw [Before, h.batch]
  have hunused : ∀ j, a.batch.seqSet j ≠ ∅ → a'.used j = false → a.used j = false ∧ j ∉ c.idxs := by
    intro j hj hu
    rw [h.used j hj] at hu
    simpa using hu
  rw [FilledBatch.seqOrdered_iff] at hE ⊢
  refine ⟨pairwise_append.mpr ⟨hE, ?_, fun i hi j hj hshare => ?_⟩, fun i hi j hj hu hshare => ?_⟩
  · refine h.order.imp_of_mem fun {i j} _ hj hij hshare => ?_
    exact hmono i j (hij hshare) (h.lt j hj) hshare
  · exact hbefore i hi j (h.lt j hj) (h.fresh j hj hshare.symm.left_ne) hshare
  · obtain ⟨hu, hjc⟩ := hunused j hshare.symm.left_ne hu
    rcases List.mem_append.mp hi with hi | hi
    · exact hbefore i hi j hj hu hshare
    · exact not_lt.mp fun hlt => hno ⟨i, hi, j, hj, hu, hjc, hshare, hlt⟩

theorem seqOrdered_of_noOvertaking {kind : SplitKind} {nUbatch : Nat} (hkind : kind.BySet) :
    ∀ {m : Nat} {a a' : LlamaBatchAllocr} {E : List Nat} {calls : List SplitCall},
      kind.Ok a.batch nUbatch → kind.DownSets a → a.batch.PosMono → a.batch.SeqOrdered E →
      Before a E → NoOvertaking kind nUbatch a →
      splitCalls kind nUbatch m a = some (calls, a') → a.batch.SeqOrdered (E ++ emitted calls)
  | 0, _, _, _, _, _, _, _, hE, _, _, h => by
      obtain ⟨rfl, -⟩ := Prod.mk.inj (some.inj h)
      simpa [emitted] using hE
  | m + 1, a, a', E, calls, hok, hdown, hmono, hE, hbefore, hno, h => by
      obtain ⟨c, a₁, rest, hcall, hrest, rfl⟩ := splitCalls_succ h
      obtain ⟨c', a₁', hcall', hcok, hdown'⟩ := splitCall_ok hkind hok hdown
      obtain ⟨rfl, rfl⟩ := Prod.mk.inj (some.inj (hcall'.symm.trans hcall))
      obtain ⟨hE', hbefore'⟩ := hcok.ordered hmono hE hbefore (hno 0 [] a _ _ rfl hcall)
      have hfinal := seqOrdered_of_noOvertaking hkind (hcok.batch ▸ hok) hdown'
        (hcok.batch ▸ hmono) hE' hbefore' (hno.tail hcall) hrest
      rw [hcok.batch] at hfinal
      simpa [emitted] using hfinal

/-! ## Ordered runs do not overtake -/

/-- A token unused at the start of a run and used at its end is emitted in it. -/
theorem mem_emitted_of_used {kind : SplitKind} {nUbatch : Nat} (hkind : kind.BySet) {j : Nat} :
    ∀ {m : Nat} {a a' : LlamaBatchAllocr} {calls : List SplitCall},
      kind.Ok a.batch nUbatch → kind.DownSets a → a.batch.seqSet j ≠ ∅ →
      splitCalls kind nUbatch m a = some (calls, a') → a.used j = false → a'.used j = true →
      j ∈ emitted calls
  | 0, _, _, _, _, _, _, h, hu, hu' => by
      obtain ⟨-, rfl⟩ := Prod.mk.inj (some.inj h)
      rw [hu] at hu'
      cases hu'
  | m + 1, a, a', calls, hok, hdown, hj, h, hu, hu' => by
      obtain ⟨c, a₁, rest, hcall, hrest, rfl⟩ := splitCalls_succ h
      obtain ⟨c', a₁', hcall', hcok, hdown'⟩ := splitCall_ok hkind hok hdown
      obtain ⟨rfl, rfl⟩ := Prod.mk.inj (some.inj (hcall'.symm.trans hcall))
      rw [emitted, flatMap_cons, List.mem_append]
      by_cases hmem : j ∈ c'.idxs
      · exact .inl hmem
      · have hu₁ : a₁'.used j = false := by
          rw [hcok.used j hj]
          simp [hu, hmem]
        exact .inr (mem_emitted_of_used hkind (hcok.batch ▸ hok) hdown' (hcok.batch ▸ hj) hrest
          hu₁ hu')

/-- After the empty ubatch a run stays where it is. -/
theorem splitCalls_of_done {kind : SplitKind} {nUbatch : Nat} {a aLast : LlamaBatchAllocr}
    {last : SplitCall} (hlast : splitCall kind nUbatch a = some (last, aLast))
    (hcok : CallOk a last aLast) (hzero : last.ubatch.nTokens = 0) :
    ∀ {m : Nat} {calls : List SplitCall} {a' : LlamaBatchAllocr},
      splitCalls kind nUbatch m a = some (calls, a') → a' = a
  | 0, _, _, h => (Prod.mk.inj (Option.some.inj h)).2.symm
  | m + 1, _, _, h => by
      obtain ⟨c, a₁, rest, hcall, hrest, -⟩ := splitCalls_succ h
      obtain ⟨-, rfl⟩ := Prod.mk.inj (some.inj (hcall.symm.trans hlast))
      obtain ⟨-, rfl, -⟩ := hcok.done hzero
      exact splitCalls_of_done hlast hcok hzero hrest

theorem noOvertaking_of_seqOrdered {kind : SplitKind} {nUbatch : Nat} (hkind : kind.BySet) :
    ∀ {m : Nat} {a aEnd aLast : LlamaBatchAllocr} {calls : List SplitCall} {last : SplitCall},
      kind.Ok a.batch nUbatch → kind.DownSets a →
      splitCalls kind nUbatch m a = some (calls, aEnd) →
      splitCall kind nUbatch aEnd = some (last, aLast) → last.ubatch.nTokens = 0 →
      a.batch.SeqOrdered (emitted calls) → NoOvertaking kind nUbatch a
  | 0, a, aEnd, aLast, calls, last, hok, hdown, hcalls, hlast, hzero, _ => by
      obtain ⟨-, rfl⟩ := Prod.mk.inj (some.inj hcalls)
      obtain ⟨c', a', hcall', hcok, -⟩ := splitCall_ok hkind hok hdown
      obtain ⟨rfl, rfl⟩ := Prod.mk.inj (some.inj (hcall'.symm.trans hlast))
      intro j calls' b c b' hb hcall
      obtain rfl := splitCalls_of_done hlast hcok hzero hb
      obtain ⟨rfl, rfl⟩ := Prod.mk.inj (some.inj (hcall'.symm.trans hcall))
      rintro ⟨i, hi, -⟩
      rw [(hcok.done hzero).1] at hi
      exact not_mem_nil hi
  | m + 1, a, aEnd, aLast, calls, last, hok, hdown, hcalls, hlast, hzero, hord => by
      obtain ⟨c, a₁, rest, hcall, hrest, rfl⟩ := splitCalls_succ hcalls
      obtain ⟨c', a₁', hcall', hcok, hdown'⟩ := splitCall_ok hkind hok hdown
      obtain ⟨rfl, rfl⟩ := Prod.mk.inj (some.inj (hcall'.symm.trans hcall))
      rw [FilledBatch.seqOrdered_iff, emitted, flatMap_cons, pairwise_append] at hord
      intro j calls' b d b' hb hd
      cases j with
      | zero =>
        obtain ⟨-, rfl⟩ := Prod.mk.inj (some.inj hb)
        obtain ⟨rfl, rfl⟩ := Prod.mk.inj (some.inj (hcall'.symm.trans hd))
        rintro ⟨i, hi, k, hk, hu, hki, hshare, hlt⟩
        -- the overtaken token is emitted by a later call
        obtain ⟨hbEnd, hdownEnd⟩ := splitCalls_ok hkind (hcok.batch ▸ hok) hdown' hrest
        obtain ⟨e, b'', hcallEnd, hcokEnd, -⟩ :=
          splitCall_ok hkind (hbEnd ▸ hcok.batch ▸ hok) hdownEnd
        obtain ⟨rfl, rfl⟩ := Prod.mk.inj (some.inj (hcallEnd.symm.trans hlast))
        have huEnd : aEnd.used k = true :=
          (hcokEnd.done hzero).2.2 k (by rw [hbEnd, hcok.batch]; exact hk)
        have hu₁ : a₁'.used k = false := by
          rw [hcok.used k hshare.symm.left_ne]
          simp [hu, hki]
        have hmem := mem_emitted_of_used hkind (hcok.batch ▸ hok) hdown'
          (hcok.batch ▸ hshare.symm.left_ne) hrest hu₁ huEnd
        exact absurd (hord.2.2 i hi k hmem hshare) (not_le.mpr hlt)
      | succ j =>
        obtain ⟨c'', a₂, rest', hcall'', hrest', -⟩ := splitCalls_succ hb
        obtain ⟨-, rfl⟩ := Prod.mk.inj (some.inj (hcall''.symm.trans hcall))
        refine noOvertaking_of_seqOrdered hkind (hcok.batch ▸ hok) hdown' hrest hlast hzero ?_
          _ _ _ _ _ hrest' hd
        rw [FilledBatch.seqOrdered_iff, hcok.batch]
        exact hord.2.1

/-! ## Nested batches -/

/-- In a nested batch `split_seq` skips only tokens that share no sequence with the
ones it takes after them. -/
theorem seqLoop_nested {nUbatch : Nat} {batch : FilledBatch} (hnest : batch.Nested) :
    ∀ (is : List Nat) (cur : Finset SeqId) (idxs : List Nat) (a : LlamaBatchAllocr),
      a.batch = batch → is.Pairwise (· < ·) → (∀ j ∈ is, j < batch.nTokens) →
      (∀ j ∈ is, ¬Disjoint cur (batch.seqSet j) → batch.seqSet j ⊆ cur) →
      ∃ taken, (seqLoop nUbatch is cur idxs a).1 = idxs ++ taken ∧ taken.Sublist is ∧
        (∀ i ∈ taken, batch.seqSet i ⊆ cur) ∧
        ∀ i ∈ taken, ∀ j ∈ is, j < i → a.used j = false → j ∉ taken → ¬batch.Shares i j
  | [], _, idxs, _, _, _, _, _ => ⟨[], by simp [seqLoop], .slnil, by simp, by simp⟩
  | k :: is, cur, idxs, a, hbatch, hsorted, hlt, hcur => by
      obtain ⟨hk, hsorted⟩ := pairwise_cons.mp hsorted
      have hlt' : ∀ j ∈ is, j < batch.nTokens := fun j hj => hlt j (mem_cons_of_mem k hj)
      rw [seqLoop]
      split
      · exact ⟨[], by simp, nil_sublist _, by simp, by simp⟩
      split
      next hskip =>
        obtain ⟨taken, heq, hsub, hle, hno⟩ := seqLoop_nested hnest is cur idxs a hbatch hsorted hlt'
          (fun j hj => hcur j (mem_cons_of_mem k hj))
        refine ⟨taken, heq, hsub.cons k, hle, fun i hi j hj hji hu hjt => ?_⟩
        rcases mem_cons.mp hj with rfl | hj
        · -- `j` was skipped for its set, which is then disjoint from the current one
          have hnsub : ¬batch.seqSet j ⊆ cur := by
            rcases hskip with hused | hne
            · rw [hu] at hused
              cases hused
            · rw [← hbatch]
              exact fun hle => hne (Finset.inter_eq_right.mpr hle)
          have hdisj : Disjoint cur (batch.seqSet j) :=
            not_not.mp fun hnd => hnsub (hcur j mem_cons_self hnd)
          exact fun hshare => hshare (hdisj.mono_left (hle i hi))
        · exact hno i hi j hj hji hu hjt
      next htake =>
        have hsub : batch.seqSet k ⊆ cur := by
          rw [← hbatch]
          exact Finset.inter_eq_right.mp (not_not.mp (not_or.mp htake).2)
        obtain ⟨taken, heq, hsubl, hle, hno⟩ :=
          seqLoop_nested hnest is (batch.seqSet k) (idxs ++ [k]) (a.takeToken k) hbatch hsorted hlt'
            fun j hj => hnest k j (hk j hj) (hlt' j hj)
        rw [hbatch]
        refine ⟨k :: taken, ?_, hsubl.cons_cons k, fun i hi => ?_, fun i hi j hj hji hu hjt => ?_⟩
        · rw [heq, append_assoc, singleton_append]
        · rcases mem_cons.mp hi with rfl | hi
          · exact hsub
          · exact (hle i hi).trans hsub
        · obtain ⟨hjk, hjt⟩ := not_or.mp (mt mem_cons.mpr hjt)
          rcases mem_cons.mp hj with rfl | hj
          · exact absurd rfl hjk
          · rcases mem_cons.mp hi with hik | hi
            · exact absurd (hk j hj) (not_lt.mpr (hik ▸ hji.le))
            · exact hno i hi j hj hji (by simpa [takeToken, hjk] using hu) hjt

/-- An unused token before `c` is gathered, or overlaps a set gathered no later. -/
def Gathered (a : LlamaBatchAllocr) (sets : List (Finset SeqId)) (d : Nat) : Prop :=
  ∃ e ≤ d, a.batch.seqSet e ∈ sets ∧ (e = d ∨ a.batch.Shares e d)

/-- A set is gathered for a token before which every unused token is accounted for. -/
theorem gatherLoop_earlier (a : LlamaBatchAllocr) (nUbatch : Nat) :
    ∀ (is : List Nat) (cur : List (Finset SeqId)) (last : Int), is.Pairwise (· < ·) →
      (∀ T ∈ cur, ∃ e, a.batch.seqSet e = T ∧ ∀ d ∈ is, e < d) →
      ∀ S ∈ gatherLoop a nUbatch false is cur last, S ∈ cur ∨
        ∃ c ∈ is, a.batch.seqSet c = S ∧ ∀ d ∈ is, d < c → a.used d = false →
          Gathered a (gatherLoop a nUbatch false is cur last) d
  | [], _, _, _, _, _, hS => .inl hS
  | k :: is, cur, last, hsorted, hcur, S, hS => by
      obtain ⟨hk, hsorted'⟩ := pairwise_cons.mp hsorted
      have hcur' : ∀ T ∈ cur, ∃ e, a.batch.seqSet e = T ∧ ∀ d ∈ is, e < d := by
        intro T hT
        obtain ⟨e, he, hlt⟩ := hcur T hT
        exact ⟨e, he, fun d hd => hlt d (mem_cons_of_mem k hd)⟩
      have hfirst : ∀ d ∈ k :: is, ¬d < k := by
        intro d hd
        rcases mem_cons.mp hd with rfl | hd
        · exact lt_irrefl _
        · exact not_lt.mpr (hk d hd).le
      -- what holds of the tokens after `k` carries over if `k` is accounted for
      have hcons : ∀ R : List (Finset SeqId), (a.used k = false → Gathered a R k) →
          (∃ c ∈ is, a.batch.seqSet c = S ∧ ∀ d ∈ is, d < c → a.used d = false → Gathered a R d) →
          ∃ c ∈ k :: is, a.batch.seqSet c = S ∧ ∀ d ∈ k :: is, d < c → a.used d = false → Gathered a R d := by
        rintro R hkR ⟨c, hc, hset, hbefore⟩
        refine ⟨c, mem_cons_of_mem k hc, hset, fun d hd hdc hu => ?_⟩
        rcases mem_cons.mp hd with rfl | hd
        · exact hkR hu
        · exact hbefore d hd hdc hu
      have hpre := gatherLoop_keeps a nUbatch false (k :: is) cur last
      rw [gatherLoop] at hS hpre ⊢
      by_cases hused : a.used k = true
      · rw [if_pos hused] at hS ⊢
        refine (gatherLoop_earlier a nUbatch is cur last hsorted' hcur' S hS).imp_right
          (hcons _ fun hu => ?_)
        rw [hused] at hu
        cases hu
      rw [if_neg hused] at hS hpre ⊢
      split at hS
      next hadd =>
        rw [if_pos hadd]
        dsimp only at hS ⊢
        have hmem : S ∈ cur ++ [a.batch.seqSet k] → ∀ R, S ∈ cur ∨ ∃ c ∈ k :: is,
            a.batch.seqSet c = S ∧ ∀ d ∈ k :: is, d < c → a.used d = false → Gathered a R d := by
          intro hS R
          rcases List.mem_append.mp hS with hS | hS
          · exact .inl hS
          · exact .inr ⟨k, mem_cons_self, (mem_singleton.mp hS).symm, fun d hd hdk => absurd hdk (hfirst d hd)⟩
        split at hS
        next hfull =>
          rw [if_pos hfull]
          exact hmem hS _
        next hfit =>
          rw [if_neg hfit]
          have hadded : ∀ T ∈ cur ++ [a.batch.seqSet k], ∃ e, a.batch.seqSet e = T ∧ ∀ d ∈ is, e < d := by
            intro T hT
            rcases List.mem_append.mp hT with hT | hT
            · exact hcur' T hT
            · exact ⟨k, (mem_singleton.mp hT).symm, hk⟩
          have hkR := (gatherLoop_keeps a nUbatch false is (cur ++ [a.batch.seqSet k])
            (a.batch.seqId k 0)).subset (mem_append_right _ (mem_singleton_self _))
          rcases gatherLoop_earlier a nUbatch is _ _ hsorted' hadded S hS with hS | hS
          · exact hmem hS _
          · exact .inr (hcons _ (fun _ => ⟨k, le_rfl, hkR, .inl rfl⟩) hS)
      next hskip =>
        rw [if_neg hskip] at hpre ⊢
        refine (gatherLoop_earlier a nUbatch is cur last hsorted' hcur' S hS).imp_right
          (hcons _ fun _ => ?_)
        -- `k` overlaps a set gathered before it
        obtain ⟨T, hT, hne⟩ : ∃ T ∈ cur, T ∩ a.batch.seqSet k ≠ ∅ := by
          by_contra hall
          refine hskip ⟨List.all_eq_true.mpr fun T hT => ?_, by simp⟩
          exact decide_eq_true (not_not.mp fun hne => hall ⟨T, hT, hne⟩)
        obtain ⟨e, rfl, hlt⟩ := hcur T hT
        exact ⟨e, (hlt k mem_cons_self).le, hpre.subset hT,
          .inr fun hd => hne (Finset.disjoint_iff_inter_eq_empty.mp hd)⟩

section Nested

variable {a : LlamaBatchAllocr} {nUbatch i j : Nat} (hnest : a.batch.Nested)

include hnest

theorem pickSeq_nested (hi : i ∈ (a.pickSeq nUbatch).idxs) (hj : j < a.batch.nTokens)
    (hu : a.used j = false) (hjc : j ∉ (a.pickSeq nUbatch).idxs) (hij : j < i)
    (hshare : a.batch.Shares i j) : False := by
  unfold pickSeq at hi hjc
  cases hfirst : a.firstUnused with
  | none =>
    rw [hfirst] at hi
    exact not_mem_nil hi
  | some k =>
    obtain ⟨-, -, hbefore⟩ := firstUnused_eq_some hfirst
    obtain ⟨hk, hsorted⟩ := pairwise_cons.mp (indicesAfter_sorted a k)
    have hlt : ∀ d ∈ a.indicesAfter k, d < a.batch.nTokens :=
      fun d hd => (lt_of_mem_indicesAfter hd).2
    obtain ⟨taken, heq, hsub, -, hno⟩ := seqLoop_nested hnest (a.indicesAfter k)
      (a.batch.seqSet k) [k] (a.takeToken k) rfl hsorted hlt
      fun d hd => hnest k d (hk d hd) (hlt d hd)
    rw [hfirst] at hi hjc
    dsimp only at hi hjc
    rw [heq, singleton_append, mem_cons] at hi hjc
    obtain ⟨hjk, hjt⟩ := not_or.mp hjc
    have hkj : k < j := by
      rcases Nat.lt_trichotomy j k with hlt | hjk' | hlt
      · rw [hbefore j hlt] at hu
        cases hu
      · exact absurd hjk' hjk
      · exact hlt
    rcases hi with rfl | hi
    · omega
    · refine hno i hi j ?_ hij (by simpa [takeToken, hjk] using hu) hjt hshare
      rw [indicesAfter, mem_range'_1]
      omega

theorem pickEqual_nested {nKeepTail : Nat} {p : Picked}
    (hok : (SplitKind.equal false nKeepTail).Ok a.batch nUbatch)
    (hp : a.pickEqual nUbatch false nKeepTail = some p) (hi : i ∈ p.idxs)
    (hj : j < a.batch.nTokens) (hu : a.used j = false) (hjc : j ∉ p.idxs) (hij : j < i)
    (hshare : a.batch.Shares i j) : False := by
  by_cases hnil : a.gatherSeqSets nUbatch false = []
  · rw [pickEqual_eq_none hnil] at hp
    cases hp
    exact not_mem_nil hi
  obtain ⟨full, put, cs, a₁, hpick, hkept⟩ := pickEqual_eq hok.2 hok.1 hnil
  obtain rfl := some.inj (hpick.symm.trans hp)
  obtain ⟨d, hd, hid⟩ := mem_flatMap.mp hi
  obtain ⟨hin, hset⟩ := (hkept.ok d hd).mem_list hid
  -- a token of the same set before `i` would have been taken
  have hne : a.batch.seqSet j ≠ d.seqSet := by
    intro heq
    rcases (hkept.ok d hd).used_or_mem hid hij heq with hused | hmem
    · rw [hu] at hused
      cases hused
    · exact hjc (mem_flatMap.mpr ⟨d, hd, hmem⟩)
  have hsub : d.seqSet ⊆ a.batch.seqSet j := hset ▸ hnest j i hij hin hshare.symm
  have hS : d.seqSet ∈ a.gatherSeqSets nUbatch false :=
    hkept.sets_pre.subset (List.mem_map_of_mem hd)
  have hS0 : d.seqSet ≠ ∅ := hset ▸ hshare.left_ne
  -- two gathered sets that overlap are equal
  have hinj : ∀ T ∈ a.gatherSeqSets nUbatch false, ¬Disjoint T d.seqSet → T = d.seqSet := by
    intro T hT hnd
    by_contra hTS
    exact hnd ((gatherSeqSets_disjoint a nUbatch false).forall hT hS hTS)
  rcases gatherLoop_earlier a nUbatch (List.range a.batch.nTokens) [] (-1) pairwise_lt_range
    (by simp) d.seqSet hS with hS | ⟨c, hc, hcset, hbefore⟩
  · exact not_mem_nil hS
  have hcj : a.batch.Shares c j := by
    rw [FilledBatch.Shares, hcset]
    exact fun hd' => hS0 (disjoint_self.mp (hd'.mono_right hsub))
  rcases Nat.lt_trichotomy c j with hlt | rfl | hlt
  · exact hne (Finset.Subset.antisymm (hcset ▸ hnest c j hlt hj hcj) hsub)
  · exact hne hcset
  · obtain ⟨e, hej, heR, heq⟩ := hbefore j (mem_range.mpr hj) hlt hu
    -- the set gathered for `e` contains the one of `j`
    have hsup : a.batch.seqSet j ⊆ a.batch.seqSet e := by
      rcases heq with rfl | hshare'
      · exact Finset.Subset.refl _
      · rcases Nat.eq_or_lt_of_le hej with rfl | hlt'
        · exact Finset.Subset.refl _
        · exact hnest e j hlt' hj hshare'
    have heS := hinj _ heR fun hd' => hS0 (disjoint_self.mp (hd'.mono_left (hsub.trans hsup)))
    exact hne (Finset.Subset.antisymm (heS ▸ hsup) hsub)

end Nested

/-- In a nested batch no call overtakes a token. -/
theorem not_overtakes_of_nested {nUbatch : Nat} {a a' : LlamaBatchAllocr} (hkind : kind.BySet)
    (hok : kind.Ok a.batch nUbatch) (hdown : kind.DownSets a) (hmono : a.batch.PosMono)
    (hnest : a.batch.Nested) (hcall : splitCall kind nUbatch a = some (c, a')) :
    ¬Overtakes a c.idxs := by
  rintro ⟨i, hi, j, hj, hu, hjc, hshare, hpos⟩
  obtain ⟨c', a₁, hcall', hcok, -⟩ := splitCall_ok hkind hok hdown
  obtain ⟨rfl, rfl⟩ := Prod.mk.inj (some.inj (hcall'.symm.trans hcall))
  have hij : j < i := by
    rcases Nat.lt_trichotomy j i with hlt | rfl | hlt
    · exact hlt
    · exact absurd hi hjc
    · exact absurd (hmono i j hlt hj hshare) (not_le.mpr hpos)
  obtain ⟨p, hp, heq⟩ := map_eq_some_iff.mp hcall
  obtain ⟨rfl, rfl⟩ := Prod.mk.inj heq
  cases kind with
  | simple => exact hkind.elim
  | seq =>
    obtain rfl := some.inj hp
    exact pickSeq_nested hnest hi hj hu hjc hij hshare
  | equal sequential nKeepTail =>
    cases hkind
    exact pickEqual_nested hnest hok hp hi hj hu hjc hij hshare

section Claim

variable {nPosPerEmbd : Nat} {inp : LlamaBatch} {nVocab : Nat} {memory : Option LlamaMemory}
  {nEmbd nSeqMax : Nat} {outputAll : Bool} {a : LlamaBatchAllocr}

theorem noOvertaking_of_nested {kind : SplitKind} {nUbatch : Nat} (hkind : kind.BySet)
    (hok : kind.Ok a.batch nUbatch) (hdown : kind.DownSets a) (hmono : a.batch.PosMono)
    (hnest : a.batch.Nested) : NoOvertaking kind nUbatch a := by
  intro m calls a' c a'' hcalls hcall
  obtain ⟨hbatch, hdown'⟩ := splitCalls_ok hkind hok hdown hcalls
  exact not_overtakes_of_nested hkind (hbatch ▸ hok) hdown' (hbatch ▸ hmono) (hbatch ▸ hnest) hcall

end Claim

end LlamaBatchAllocr

end LlamaCpp
