import Mathlib.Data.List.TakeWhile
import LlamaCpp.Batch.SplitRuns

/-!
# The shape and the size of a ubatch

The rounds of `split_equal` take one token of every gathered set at a time, so all
cursors have taken the same number of tokens when they stop (`expand_level`).  The tail
phase keeps some of the cursors as they are, or one that it completes or shortens
(`keepTail_cases`).  Either way the ubatch is made of blocks of one length
(`splitEqual_blocks`).

How long it gets is another matter.  The first round is taken without a look at `n_ubatch`,
and the loop that gathers the sets stops one set too late: with more than `n_ubatch` sets
waiting the ubatch has `n_ubatch + 1` tokens (`splitCall_nTokens_le_iff`).
-/

namespace LlamaCpp.LlamaBatchAllocr

open Option
open List hiding Disjoint

/-! ## Rounds -/

/-- All cursors have taken `m` tokens. -/
def Level (cs : List SeqCursor) (m : Nat) : Prop := ∀ c ∈ cs, c.idxs.length = m

theorem Level.advance {cs : List SeqCursor} {m : Nat} (h : Level cs m) : Level (cs.map SeqCursor.advance) (m + 1) := by
  intro c hc
  obtain ⟨c, hmem, rfl⟩ := List.mem_map.mp hc
  simp [SeqCursor.advance, h c hmem]

theorem Level.head {cs : List SeqCursor} {m : Nat} (h : Level cs m) (hne : cs ≠ []) :
    (cs.head?.elim 0 fun c => c.idxs.length) = m := by
  obtain ⟨c, rest, rfl⟩ := exists_cons_of_ne_nil hne
  exact h c mem_cons_self

theorem Level.length_flatMap {cs : List SeqCursor} {m : Nat} (h : Level cs m) :
    (cs.flatMap SeqCursor.idxs).length = m * cs.length := by
  induction cs with
  | nil => rfl
  | cons c cs ih =>
    have hc := h c mem_cons_self
    have hrest := ih fun d hd => h d (mem_cons_of_mem c hd)
    rw [flatMap_cons, length_append, hc, hrest, length_cons, Nat.mul_succ, Nat.add_comm]

/-- The rounds leave all cursors at one level, and after the first round only as long as `n_ubatch` allows. -/
theorem expand_level (nUbatch : Nat) : ∀ (fuel : Nat) (cs : List SeqCursor) (a : LlamaBatchAllocr) (m : Nat),
    cs ≠ [] → Level cs m → (m = 0 ∨ (m + 1) * cs.length ≤ nUbatch) →
      ∃ m', Level (expand nUbatch fuel cs a).1 m' ∧ (m' ≤ 1 ∨ m' * cs.length ≤ nUbatch)
  | 0, cs, a, m, _, hlevel, hm => by
      refine ⟨m, hlevel, ?_⟩
      rw [Nat.succ_mul] at hm
      omega
  | fuel + 1, cs, a, m, hne, hlevel, hm => by
      rw [expand]
      split
      · refine ⟨m, hlevel, ?_⟩
        rw [Nat.succ_mul] at hm
        omega
      have hne' : cs.map SeqCursor.advance ≠ [] := by simpa using hne
      dsimp only
      rw [hlevel.advance.head hne', length_map]
      split
      · exact ⟨m + 1, hlevel.advance, hm.imp_left fun h => by omega⟩
      next hfit =>
        have hrec := expand_level nUbatch fuel (cs.map SeqCursor.advance) (a.takeTokens (cs.map SeqCursor.next)) (m + 1)
          hne' hlevel.advance (.inr (by rw [length_map]; exact not_lt.mp hfit))
        rwa [length_map] at hrec

/-! ## The tail phase -/

/-- What the tail phase makes of the cursors `cs` of the allocator `a`: it emits the first ones, which are complete or
leave enough, or the first one alone, which it completes or shortens. -/
inductive TailCase (nUbatch nKeepTail : Nat) (cs : List SeqCursor) (a : LlamaBatchAllocr) :
    List SeqCursor → LlamaBatchAllocr → Prop where
  | keep (n : Nat) (hn : n + 1 ≤ cs.length)
      (hkeep : ∀ c ∈ cs.take (n + 1), c.remaining = 0 ∨ nKeepTail ≤ c.remaining)
      (hlast : ∀ c, cs[n + 1]? = some c → c.remaining ≠ 0 ∧ c.remaining < nKeepTail) :
      TailCase nUbatch nKeepTail cs a (cs.take (n + 1))
        (a.putBackAll ((cs.drop (n + 1)).flatMap SeqCursor.idxs))
  | complete (c : SeqCursor) (rest : List SeqCursor) (hcs : cs = c :: rest)
      (hrem : c.remaining ≠ 0 ∧ c.remaining < nKeepTail) (hfit : c.idxs.length + c.remaining ≤ nUbatch) :
      TailCase nUbatch nKeepTail cs a [{ c with idxs := c.idxs ++ c.list.drop c.cur, cur := c.list.length }]
        ((a.takeTokens (c.list.drop c.cur)).putBackAll (rest.flatMap SeqCursor.idxs))
  | shorten (c : SeqCursor) (rest : List SeqCursor) (m : Nat) (hcs : cs = c :: rest)
      (hrem : c.remaining ≠ 0 ∧ c.remaining < nKeepTail) (hfit : nUbatch < c.idxs.length + c.remaining)
      (hm : m = min c.idxs.length (nKeepTail - c.remaining)) :
      TailCase nUbatch nKeepTail cs a [{ c with idxs := c.idxs.take (c.idxs.length - m), cur := c.cur - m }]
        (a.putBackAll ((c.idxs.drop (c.idxs.length - m)).reverse ++ rest.flatMap SeqCursor.idxs))

/-- The element behind a `takeWhile` does not have the property. -/
theorem takeWhile_stops {α : Type} {p : α → Bool} {l : List α} {x : α} (h : l[(l.takeWhile p).length]? = some x) :
    p x = false := by
  induction l with
  | nil => simp at h
  | cons y l ih =>
    cases hy : p y with
    | true =>
      rw [takeWhile_cons_of_pos hy, length_cons, getElem?_cons_succ] at h
      exact ih h
    | false =>
      rw [takeWhile_cons_of_neg (by simp [hy]), length_nil, getElem?_cons_zero] at h
      exact some.inj h ▸ hy

section Tail

variable {nUbatch nKeepTail : Nat} {cs : List SeqCursor} {a : LlamaBatchAllocr}

/-- Without a tail to keep every cursor is emitted. -/
theorem TailCase.all (hne : cs ≠ []) : TailCase nUbatch 0 cs a cs a := by
  have hpos := length_pos_iff.mpr hne
  have hcase : TailCase nUbatch 0 cs a (cs.take (cs.length - 1 + 1))
      (a.putBackAll ((cs.drop (cs.length - 1 + 1)).flatMap SeqCursor.idxs)) := by
    refine .keep (cs.length - 1) (by omega) (fun c _ => .inr (Nat.zero_le _)) fun c hc => ?_
    have hlt := (List.getElem?_eq_some_iff.mp hc).1
    omega
  rw [Nat.sub_add_cancel hpos, take_length, drop_length] at hcase
  exact hcase

theorem keepTail_cases (hne : cs ≠ []) (hcur : ∀ c ∈ cs, c.idxs.length ≤ c.cur ∧ c.cur ≤ c.list.length) :
    TailCase nUbatch nKeepTail cs a (keepTail nUbatch nKeepTail cs a).1 (keepTail nUbatch nKeepTail cs a).2 := by
  obtain ⟨c, rest, rfl⟩ := exists_cons_of_ne_nil hne
  obtain ⟨hidxs, hle⟩ := hcur c mem_cons_self
  let ok : SeqCursor → Bool := fun c => ¬(c.remaining ≠ 0 ∧ c.remaining < nKeepTail)
  have hok : ∀ c : SeqCursor, ok c = true ↔ c.remaining = 0 ∨ nKeepTail ≤ c.remaining := by
    intro c
    simp only [ok, decide_eq_true_eq]
    omega
  unfold keepTail
  cases hkeep : nKeepOf nKeepTail (c :: rest) with
  | zero =>
    have hrem : c.remaining ≠ 0 ∧ c.remaining < nKeepTail := by
      by_contra hrem
      have hpos : ok c = true := decide_eq_true hrem
      rw [nKeepOf, takeWhile_cons_of_pos hpos] at hkeep
      simp at hkeep
    unfold resolveFirst
    dsimp only
    split
    next hfit => exact .complete c rest rfl hrem hfit
    next hfit =>
      rw [truncate_eq nKeepTail c.idxs.length c a _ le_rfl hidxs hle rfl, putBackAll_append]
      exact .shorten c rest _ rfl hrem (not_le.mp hfit) rfl
  | succ n =>
    have hpre : (c :: rest).take (n + 1) = (c :: rest).takeWhile ok := by
      rw [← hkeep]
      exact (prefix_iff_eq_take.mp (List.takeWhile_prefix _)).symm
    have hlen : n + 1 ≤ (c :: rest).length := by
      rw [← hkeep]
      exact (List.takeWhile_prefix _).length_le
    refine .keep n hlen (fun d hd => ?_) fun d hd => ?_
    · rw [hpre] at hd
      exact (hok d).mp (mem_takeWhile_imp hd)
    · rw [← hkeep] at hd
      have hnot : ok d = false := takeWhile_stops hd
      by_contra hrem
      exact Bool.false_ne_true (hnot.symm.trans (decide_eq_true hrem))

end Tail

/-! ## What `split_equal` chooses -/

section Chosen

variable {a : LlamaBatchAllocr} {nUbatch nKeepTail : Nat} {sequential : Bool} {p : Picked}

/-- The cursors after the rounds, with the allocator that has marked their tokens. -/
def rounds (a : LlamaBatchAllocr) (nUbatch : Nat) (sequential : Bool) : List SeqCursor × LlamaBatchAllocr :=
  expand nUbatch a.batch.nTokens ((a.gatherSeqSets nUbatch sequential).map a.cursorOf) a

/-- The rounds leave the cursors at one level, of at least one token. -/
theorem rounds_level (hne : a.gatherSeqSets nUbatch sequential ≠ []) :
    ∃ m, Level (a.rounds nUbatch sequential).1 m ∧ 1 ≤ m ∧
      (m = 1 ∨ m * (a.gatherSeqSets nUbatch sequential).length ≤ nUbatch) := by
  obtain ⟨-, -, -, hcs, hidxs⟩ := expand_gathered a nUbatch sequential hne
  have hzero : Level ((a.gatherSeqSets nUbatch sequential).map a.cursorOf) 0 := by
    intro c hc
    obtain ⟨S, -, rfl⟩ := List.mem_map.mp hc
    rfl
  obtain ⟨m, hlevel, hm⟩ := expand_level nUbatch a.batch.nTokens _ a 0 (by simpa using hne) hzero (.inl rfl)
  obtain ⟨c, hc⟩ := exists_mem_of_ne_nil _ hcs
  have hpos : 1 ≤ m := by
    rw [← hlevel c hc]
    exact length_pos_iff.mpr (hidxs c hc)
  rw [length_map] at hm
  exact ⟨m, hlevel, hpos, hm.imp_left fun h => Nat.le_antisymm h hpos⟩

/-- `split_equal` chooses nothing, or it makes the rounds and the tail phase. -/
theorem pickEqual_cases (h : a.pickEqual nUbatch sequential nKeepTail = some p) :
    (p = a.pickedNone ∧ (sequential = true ∧ a.batch.hasCpl = true ∨ a.gatherSeqSets nUbatch sequential = [])) ∨
      ¬(sequential = true ∧ a.batch.hasCpl = true) ∧ a.gatherSeqSets nUbatch sequential ≠ [] ∧
        ∃ cs a', p = ⟨cs.flatMap SeqCursor.idxs, cs.length, true, a'⟩ ∧
          TailCase nUbatch nKeepTail (a.rounds nUbatch sequential).1 (a.rounds nUbatch sequential).2 cs a' := by
  unfold pickEqual at h
  split at h
  next hcpl => exact .inl ⟨(some.inj h).symm, .inl hcpl⟩
  next hcpl =>
    dsimp only at h
    split at h
    next hnil => exact .inl ⟨(some.inj h).symm, .inr hnil⟩
    next hne =>
      obtain ⟨hok, -, -, hcs, -⟩ := expand_gathered a nUbatch sequential hne
      refine .inr ⟨hcpl, hne, ?_⟩
      split at h
      next hzero =>
        subst hzero
        exact ⟨_, _, (some.inj h).symm, TailCase.all hcs⟩
      next =>
        split at h
        · cases h
        · refine ⟨_, _, (some.inj h).symm, keepTail_cases hcs fun c hc => ?_⟩
          have hlen := (hok c hc).length_idxs
          exact ⟨by omega, (hok c hc).cur_le⟩

end Chosen

namespace TailCase

variable {a a₁ a' : LlamaBatchAllocr} {nUbatch nKeepTail m : Nat} {cs cs' : List SeqCursor}

theorem level (h : TailCase nUbatch nKeepTail cs a₁ cs' a') (hlevel : Level cs m) : ∃ m', Level cs' m' := by
  have hone : ∀ c : SeqCursor, Level [c] c.idxs.length := fun c d hd => by rw [mem_singleton.mp hd]
  cases h with
  | keep n hn hkeep hlast => exact ⟨m, fun c hc => hlevel c (mem_of_mem_take hc)⟩
  | complete c rest hcs hrem hfit | shorten c rest m hcs hrem hfit hm => exact ⟨_, hone _⟩

theorem ne (h : TailCase nUbatch nKeepTail cs a₁ cs' a') : cs' ≠ [] := by
  cases h with
  | keep n hn hkeep hlast =>
    rw [← length_pos_iff, length_take]
    omega
  | complete c rest hcs hrem hfit | shorten c rest m hcs hrem hfit hm => exact cons_ne_nil _ _

theorem batch (h : TailCase nUbatch nKeepTail cs a₁ cs' a') : a'.batch = a₁.batch := by
  cases h with
  | keep n hn hkeep hlast | shorten c rest m hcs hrem hfit hm => rw [putBackAll_eq]
  | complete c rest hcs hrem hfit => rw [putBackAll_eq, takeTokens_eq]

/-- The emitted cursors are among the first ones, up to what they have taken. -/
theorem map_seqSet (h : TailCase nUbatch nKeepTail cs a₁ cs' a') : cs'.map SeqCursor.seqSet <+: cs.map SeqCursor.seqSet := by
  cases h with
  | keep n hn hkeep hlast => exact (List.take_prefix _ _).map _
  | complete c rest hcs hrem hfit | shorten c rest m hcs hrem hfit hm => exact hcs ▸ ⟨rest.map SeqCursor.seqSet, rfl⟩

theorem cursorOk (h : TailCase nUbatch nKeepTail cs a₁ cs' a') (hok : ∀ c ∈ cs, CursorOk a c) : ∀ c ∈ cs', CursorOk a c := by
  cases h with
  | keep n hn hkeep hlast => exact fun c hc => hok c (mem_of_mem_take hc)
  | complete c rest hcs hrem hfit =>
    intro d hd
    rw [mem_singleton.mp hd]
    exact (hok c (hcs ▸ mem_cons_self)).complete
  | shorten c rest m hcs hrem hfit hm =>
    intro d hd
    rw [mem_singleton.mp hd]
    exact (hok c (hcs ▸ mem_cons_self)).shorten (by omega)

end TailCase

/-! ## The shape of a ubatch -/

/-- A ubatch of `split_equal` is cut into blocks: one block for each of its `n_seqs`, of `n_seq_tokens` tokens in the
order of the batch that all have one sequence set, and no two blocks share a sequence.  In a sequential split the first
sequence ids count up from block to block. -/
structure EqualBlocks (batch : FilledBatch) (sequential : Bool) (c : SplitCall) (blocks : List (List Nat)) : Prop where
  idxs_eq : c.idxs = blocks.flatten
  nTokens : c.ubatch.nTokens = c.idxs.length
  nSeqs : blocks.length = c.ubatch.nSeqs
  nSeqTokens : ∀ b ∈ blocks, b.length = c.ubatch.nSeqTokens
  seqSet : ∀ b ∈ blocks, ∀ i ∈ b, ∀ j ∈ b, batch.seqSet i = batch.seqSet j
  disjoint : blocks.Pairwise fun b b' => ∀ i ∈ b, ∀ j ∈ b', Disjoint (batch.seqSet i) (batch.seqSet j)
  inOrder : ∀ b ∈ blocks, b.Pairwise (· < ·)
  firstIds : sequential = true → ∃ s0 : Int, ∀ (k : Nat) (b : List Nat), blocks[k]? = some b →
    ∀ i ∈ b, 1 ≤ batch.nSeqId i → batch.seqId i 0 = s0 + k

/-- The first ids of tokens count up. -/
def CountsUp (batch : FilledBatch) (ls : List Nat) (s0 : Int) : Prop :=
  ∀ (k l : Nat), ls[k]? = some l → batch.seqId l 0 = s0 + k

/-- Every gathered set is that of an unused token; in a sequential split the first ids of these tokens count up. -/
theorem gatherLoop_leaders (a : LlamaBatchAllocr) (nUbatch : Nat) (sequential : Bool) :
    ∀ (is ls : List Nat) (last s0 : Int), (∀ i ∈ is, i < a.batch.nTokens) → (∀ l ∈ ls, l < a.batch.nTokens) →
      (sequential = true → CountsUp a.batch ls s0 ∧ (ls ≠ [] → last + 1 = s0 + ls.length)) →
      ∃ (ls' : List Nat) (s0' : Int), gatherLoop a nUbatch sequential is (ls.map a.batch.seqSet) last = ls'.map a.batch.seqSet ∧
        (∀ l ∈ ls', l < a.batch.nTokens) ∧ (sequential = true → CountsUp a.batch ls' s0')
  | [], ls, _, s0, _, hlt, hup => ⟨ls, s0, rfl, hlt, fun hs => (hup hs).1⟩
  | i :: is, ls, last, s0, his, hlt, hup => by
      have his' : ∀ j ∈ is, j < a.batch.nTokens := fun j hj => his j (mem_cons_of_mem i hj)
      rw [gatherLoop]
      split
      · exact gatherLoop_leaders a nUbatch sequential is ls last s0 his' hlt hup
      split
      next hadd =>
        have hmap : ls.map a.batch.seqSet ++ [a.batch.seqSet i] = (ls ++ [i]).map a.batch.seqSet := by simp
        have hlt' : ∀ l ∈ ls ++ [i], l < a.batch.nTokens := by
          intro l hl
          rcases List.mem_append.mp hl with hl | hl
          · exact hlt l hl
          · exact mem_singleton.mp hl ▸ his i mem_cons_self
        -- the first set fixes where the ids start
        obtain ⟨s1, hup'⟩ : ∃ s1 : Int, sequential = true → CountsUp a.batch (ls ++ [i]) s1 ∧
            (ls ++ [i] ≠ [] → a.batch.seqId i 0 + 1 = s1 + (ls ++ [i]).length) := by
          cases ls with
          | nil =>
            refine ⟨a.batch.seqId i 0, fun _ => ⟨fun k l hl => ?_, fun _ => by simp⟩⟩
            cases k with
            | zero => simp_all
            | succ k => simp at hl
          | cons l ls =>
            refine ⟨s0, fun hs => ?_⟩
            obtain ⟨hcount, hlast⟩ := hup hs
            have hnext := hlast (cons_ne_nil _ _)
            have hid : a.batch.seqId i 0 = last + 1 := by
              rcases hadd.2 hs with hnil | hid
              · simp at hnil
              · exact hid
            refine ⟨fun k l' hl' => ?_, fun _ => ?_⟩
            · rw [getElem?_append] at hl'
              split at hl'
              · exact hcount k l' hl'
              next hge =>
                obtain ⟨hk, hl'⟩ := List.getElem?_eq_some_iff.mp hl'
                rw [length_singleton] at hk
                have hk' : k = (l :: ls).length := by omega
                rw [getElem_singleton] at hl'
                rw [← hl', hid, hnext, hk']
            · rw [length_append, length_singleton]
              omega
        rw [hmap]
        dsimp only
        split
        · exact ⟨_, s1, rfl, hlt', fun hs => (hup' hs).1⟩
        · exact gatherLoop_leaders a nUbatch sequential is (ls ++ [i]) _ s1 his' hlt' hup'
      · exact gatherLoop_leaders a nUbatch sequential is ls last s0 his' hlt hup

section Ids

variable {nPosPerEmbd : Nat} {inp : LlamaBatch} {nVocab : Nat} {memory : Option LlamaMemory} {nEmbd nSeqMax : Nat}
  {outputAll : Bool} {a : LlamaBatchAllocr}

/-- In an accepted batch the sequence ids are in range; `init` reads `n_seq_id` of a batch that has `seq_id`. -/
theorem seqId_range (h : init nPosPerEmbd inp nVocab memory nEmbd nSeqMax outputAll = .ok a)
    (hids : inp.seqId.isSome → inp.nSeqId.isSome) {i s : Nat} (hi : i < a.batch.nTokens) (hs : s < (a.batch.nSeqId i).toNat) :
    0 ≤ a.batch.seqId i s ∧ a.batch.seqId i s < llamaMaxSeq := by
  unfold init at h
  split at h
  · cases h
  split at h
  · cases h
  next hmax =>
    split at h
    · cases h
    next hinp =>
      dsimp only at h
      split at h
      · cases h
      cases h
      have hcheck := (or_eq_none_iff.mp hinp).2
      unfold LlamaBatch.checkSeqIds at hcheck
      simp only [splitReset, LlamaBatch.fill] at hi hs ⊢
      cases hseq : inp.seqId with
      | none => simp
      | some seqId =>
        obtain ⟨n, hn⟩ := isSome_iff_exists.mp (hids (by simp [hseq]))
        rw [hseq, hn, bind_some] at hcheck
        rw [hn] at hs
        have hrow := findSome?_eq_none_iff.mp hcheck i (mem_range.mpr hi)
        have hid := findSome?_eq_none_iff.mp hrow s (mem_range.mpr hs)
        simp only [getD_some]
        by_contra hout
        rw [if_pos (by omega)] at hid
        cases hid

/-- Without coupled sequences a token that has sequences has one, its first. -/
theorem seqIds_eq_first {batch : FilledBatch} (hcpl : batch.hasCpl = false) {i : Nat} (hi : i < batch.nTokens)
    (hn : 1 ≤ batch.nSeqId i) : (batch.nSeqId i).toNat = 1 ∧ batch.seqIds i = [.ofInt (batch.seqId i 0)] := by
  have htail : (batch.seqIds i).tail = [] := by
    unfold FilledBatch.hasCpl at hcpl
    simpa using List.any_eq_false.mp hcpl i (mem_range.mpr hi)
  have hlen := congrArg List.length htail
  rw [length_tail, FilledBatch.seqIds, length_map, length_range, length_nil] at hlen
  have hone : (batch.nSeqId i).toNat = 1 := by omega
  refine ⟨hone, ?_⟩
  rw [FilledBatch.seqIds, hone]
  rfl

theorem ofInt_inj {x y : Int} (hx : 0 ≤ x ∧ x < llamaMaxSeq) (hy : 0 ≤ y ∧ y < llamaMaxSeq)
    (h : SeqId.ofInt x = SeqId.ofInt y) : x = y := by
  have hval := congrArg Fin.val h
  simp only [SeqId.ofInt, Fin.val_ofNat] at hval
  rw [Nat.mod_eq_of_lt (by omega), Nat.mod_eq_of_lt (by omega)] at hval
  omega

theorem firstId_eq (h : init nPosPerEmbd inp nVocab memory nEmbd nSeqMax outputAll = .ok a)
    (hids : inp.seqId.isSome → inp.nSeqId.isSome) (hcpl : a.batch.hasCpl = false) {i l : Nat} (hi : i < a.batch.nTokens)
    (hl : l < a.batch.nTokens) (hset : a.batch.seqSet i = a.batch.seqSet l) (hn : 1 ≤ a.batch.nSeqId i) :
    a.batch.seqId i 0 = a.batch.seqId l 0 := by
  obtain ⟨hone, hi_ids⟩ := seqIds_eq_first hcpl hi hn
  have hmem : SeqId.ofInt (a.batch.seqId i 0) ∈ a.batch.seqIds l := by
    rw [← FilledBatch.mem_seqSet, ← hset, FilledBatch.mem_seqSet, hi_ids]
    exact mem_singleton.mpr rfl
  have hnl : 1 ≤ a.batch.nSeqId l := by
    obtain ⟨s, hs, -⟩ := List.mem_map.mp hmem
    have := mem_range.mp hs
    omega
  obtain ⟨hone', hl_ids⟩ := seqIds_eq_first hcpl hl hnl
  rw [hl_ids] at hmem
  exact ofInt_inj (seqId_range h hids hi (by omega)) (seqId_range h hids hl (by omega)) (mem_singleton.mp hmem)

/-- Every ubatch of `split_equal` is a list of blocks, whatever tokens of the batch are used. -/
theorem splitEqual_blocks {a₀ : LlamaBatchAllocr}
    (h : init nPosPerEmbd inp nVocab memory nEmbd nSeqMax outputAll = .ok a₀) (hids : inp.seqId.isSome → inp.nSeqId.isSome)
    (hbatch : a.batch = a₀.batch) {nUbatch nKeepTail : Nat} {sequential : Bool} {c : SplitCall} {a' : LlamaBatchAllocr}
    (hcall : splitCall (.equal sequential nKeepTail) nUbatch a = some (c, a')) :
    ∃ blocks, EqualBlocks a.batch sequential c blocks := by
  obtain ⟨p, hp, heq⟩ := map_eq_some_iff.mp hcall
  obtain ⟨rfl, -⟩ := Prod.mk.inj heq
  rcases pickEqual_cases hp with ⟨rfl, -⟩ | ⟨hcpl, hne, cs, a₁, rfl, hcase⟩
  · refine ⟨[], ?_⟩
    exact
      { idxs_eq := rfl, nTokens := rfl, nSeqs := rfl, nSeqTokens := nofun, seqSet := nofun, disjoint := .nil
        inOrder := nofun, firstIds := fun _ => ⟨0, fun k b hb => by simp at hb⟩ }
  obtain ⟨m, hlevel, -⟩ := rounds_level hne
  obtain ⟨hok, -, hsets, -, -⟩ := expand_gathered a nUbatch sequential hne
  obtain ⟨m', hlevel'⟩ := hcase.level hlevel
  have hok' := hcase.cursorOk hok
  have hpre : cs.map SeqCursor.seqSet <+: a.gatherSeqSets nUbatch sequential := hsets ▸ hcase.map_seqSet
  have hcs := length_pos_iff.mpr hcase.ne
  have hubatch : (Picked.mk (cs.flatMap SeqCursor.idxs) cs.length true a₁).ubatch =
      a₁.ubatchAdd (cs.flatMap SeqCursor.idxs) cs.length true := if_neg (by simpa using hcase.ne)
  rw [hubatch]
  refine ⟨cs.map SeqCursor.idxs, ?_⟩
  exact
    { idxs_eq := flatMap_def
      nTokens := rfl
      nSeqs := length_map _
      nSeqTokens := fun b hb => by
        obtain ⟨c, hc, rfl⟩ := List.mem_map.mp hb
        change c.idxs.length = (cs.flatMap SeqCursor.idxs).length / cs.length
        rw [hlevel'.length_flatMap, Nat.mul_div_cancel _ hcs, hlevel' c hc]
      seqSet := fun b hb i hi j hj => by
        obtain ⟨c, hc, rfl⟩ := List.mem_map.mp hb
        rw [((hok' c hc).mem_list hi).2, ((hok' c hc).mem_list hj).2]
      disjoint := by
        have hdisj := (gatherSeqSets_disjoint a nUbatch sequential).sublist hpre.sublist
        rw [pairwise_map] at hdisj ⊢
        refine hdisj.imp_of_mem fun {c d} hc hd hcd i hi j hj => ?_
        rw [((hok' c hc).mem_list hi).2, ((hok' d hd).mem_list hj).2]
        exact hcd
      inOrder := fun b hb => by
        obtain ⟨c, hc, rfl⟩ := List.mem_map.mp hb
        exact (hok' c hc).idxs_sorted
      firstIds := fun hs => by
        have hnocpl : a.batch.hasCpl = false := by
          cases hc : a.batch.hasCpl with
          | false => rfl
          | true => exact absurd ⟨hs, hc⟩ hcpl
        obtain ⟨ls, s0, hls, hlt, hup⟩ := gatherLoop_leaders a nUbatch sequential (List.range a.batch.nTokens) [] (-1) 0
          (fun i hi => mem_range.mp hi) nofun fun _ => ⟨nofun, fun hnil => absurd rfl hnil⟩
        refine ⟨s0, fun k b hb i hi hn => ?_⟩
        rw [getElem?_map] at hb
        obtain ⟨c, hc, rfl⟩ := map_eq_some_iff.mp hb
        obtain ⟨hi_lt, hi_set⟩ := (hok' c (mem_of_getElem? hc)).mem_list hi
        -- the token whose set was gathered for this block
        have hset : (a.gatherSeqSets nUbatch sequential)[k]? = some c.seqSet := by
          obtain ⟨t, ht⟩ := hpre
          rw [← ht, getElem?_append_left, getElem?_map, hc]
          · rfl
          · rw [length_map]
            exact (List.getElem?_eq_some_iff.mp hc).1
        rw [gatherSeqSets, show ([] : List (Finset SeqId)) = [].map a.batch.seqSet from rfl, hls, getElem?_map] at hset
        obtain ⟨l, hl, hlset⟩ := map_eq_some_iff.mp hset
        have hl_lt := hlt l (mem_of_getElem? hl)
        rw [hbatch] at hnocpl hi_lt hi_set hlset hl_lt hn ⊢
        rw [firstId_eq h hids hnocpl hi_lt hl_lt (hi_set.trans hlset.symm) hn, ← hbatch]
        exact hup hs k l hl }

/-- Three tokens of two sequences, in two ubatches. -/
theorem splitEqual_blocks_two :
    let inp : LlamaBatch :=
      { nTokens := 3, token := some fun _ => 0, embd := none, pos := none
        nSeqId := some fun _ => 1, seqId := some fun i _ => if i < 2 then 0 else 1, logits := none }
    ∃ a c a', splitCall (.equal true 0) 2 a = some (c, a') ∧ c.idxs = [0, 2] ∧ a.batch = inp.fill none false ∧
      ∃ blocks, EqualBlocks a.batch true c blocks := by
  intro inp
  have hinit : init 1 inp 1 none 1 2 false = .ok _ :=
    init_of_checks (by decide) (by decide) (by decide +kernel) (by decide +kernel)
  have hcall : splitCall (.equal true 0) 2 ⟨1, inp.fill none false, 1, 2, [], 0, fun _ => false⟩ = some (_, _) := rfl
  exact ⟨_, _, _, hcall, by decide +kernel, rfl, splitEqual_blocks hinit (fun _ => rfl) rfl hcall⟩

end Ids

/-! ## The size of a ubatch -/

/-- The loop that gathers sequence sets, without the look at `n_ubatch`. -/
def waitingLoop (a : LlamaBatchAllocr) (sequential : Bool) : List Nat → List (Finset SeqId) → Int → List (Finset SeqId)
  | [], cur, _ => cur
  | i :: is, cur, lastSeqId =>
    if a.used i then waitingLoop a sequential is cur lastSeqId
    else if cur.all (fun S => S ∩ a.batch.seqSet i = ∅) ∧ (sequential → cur = [] ∨ a.batch.seqId i 0 = lastSeqId + 1) then
      waitingLoop a sequential is (cur ++ [a.batch.seqSet i]) (a.batch.seqId i 0)
    else waitingLoop a sequential is cur lastSeqId

/-- The sequence sets that wait for a ubatch: those of unused tokens, in the order of the batch, as long as they do not
overlap; for a sequential split with consecutive first ids. -/
def waitingSets (a : LlamaBatchAllocr) (sequential : Bool) : List (Finset SeqId) :=
  waitingLoop a sequential (List.range a.batch.nTokens) [] (-1)

/-- The number of tokens of a set from its first unused one on. -/
def leftOf (a : LlamaBatchAllocr) (S : Finset SeqId) : Nat := (a.batch.seqSetMap S).length - (a.cursorOf S).cur

/-- More than `n_ubatch` sets wait, and of the first `n_ubatch + 1` of them none is deferred for its tail. -/
def Crowded (a : LlamaBatchAllocr) (nUbatch : Nat) (sequential : Bool) (nKeepTail : Nat) : Prop :=
  nUbatch < (a.waitingSets sequential).length ∧
    ∀ S ∈ (a.waitingSets sequential).take (nUbatch + 1), a.leftOf S = 1 ∨ nKeepTail < a.leftOf S

/-- The call is a `split_equal` that does not refuse the batch, and too many sets wait for it. -/
def SplitKind.Crowded (kind : SplitKind) (a : LlamaBatchAllocr) (nUbatch : Nat) : Prop :=
  match kind with
  | .equal sequential nKeepTail =>
    ¬(sequential = true ∧ a.batch.hasCpl = true) ∧ a.Crowded nUbatch sequential nKeepTail
  | _ => False

theorem waitingLoop_keeps (a : LlamaBatchAllocr) (sequential : Bool) :
    ∀ (is : List Nat) (cur : List (Finset SeqId)) (last : Int), cur <+: waitingLoop a sequential is cur last
  | [], _, _ => List.prefix_rfl
  | i :: is, cur, last => by
      rw [waitingLoop]
      split
      · exact waitingLoop_keeps a sequential is cur last
      split
      · exact (List.prefix_append ..).trans (waitingLoop_keeps a sequential is _ _)
      · exact waitingLoop_keeps a sequential is cur last

/-- The loop of the source stops when it has one set more than `n_ubatch`. -/
theorem gatherLoop_eq_take (a : LlamaBatchAllocr) (nUbatch : Nat) (sequential : Bool) :
    ∀ (is : List Nat) (cur : List (Finset SeqId)) (last : Int), cur.length ≤ nUbatch →
      gatherLoop a nUbatch sequential is cur last = (waitingLoop a sequential is cur last).take (nUbatch + 1)
  | [], cur, _, hlen => (List.take_of_length_le (Nat.le_succ_of_le hlen)).symm
  | i :: is, cur, last, hlen => by
      rw [gatherLoop, waitingLoop]
      split
      · exact gatherLoop_eq_take a nUbatch sequential is cur last hlen
      split
      · dsimp only
        have hlen' : (cur ++ [a.batch.seqSet i]).length = cur.length + 1 := by simp
        split
        next hfull =>
          have heq : nUbatch + 1 = (cur ++ [a.batch.seqSet i]).length := by omega
          rw [heq]
          exact prefix_iff_eq_take.mp (waitingLoop_keeps ..)
        next hmore => exact gatherLoop_eq_take a nUbatch sequential is _ _ (not_lt.mp hmore)
      · exact gatherLoop_eq_take a nUbatch sequential is cur last hlen

section Size

variable {a : LlamaBatchAllocr} {nUbatch nKeepTail : Nat} {sequential : Bool} {p : Picked}

theorem gatherSeqSets_eq_take (a : LlamaBatchAllocr) (nUbatch : Nat) (sequential : Bool) :
    a.gatherSeqSets nUbatch sequential = (a.waitingSets sequential).take (nUbatch + 1) :=
  gatherLoop_eq_take a nUbatch sequential _ [] (-1) (Nat.zero_le _)

theorem CursorOk.leftOf_eq {c : SeqCursor} (h : CursorOk a c) : a.leftOf c.seqSet = c.idxs.length + c.remaining := by
  have hlen := h.length_idxs
  have hstart := h.start_le
  have hcur := h.cur_le
  unfold leftOf SeqCursor.remaining
  rw [← h.list_eq]
  omega

theorem picked_nTokens (idxs : List Nat) {cs : List SeqCursor} (hne : cs ≠ []) (a' : LlamaBatchAllocr) :
    (Picked.mk idxs cs.length true a').ubatch.1.nTokens = idxs.length := by
  unfold Picked.ubatch
  rw [if_neg (by simpa using hne)]
  rfl

theorem pickEqual_nTokens_le_iff (hpos : 1 ≤ nUbatch) (h : a.pickEqual nUbatch sequential nKeepTail = some p) :
    p.ubatch.1.nTokens ≤ nUbatch ↔
      ¬(¬(sequential = true ∧ a.batch.hasCpl = true) ∧ a.Crowded nUbatch sequential nKeepTail) := by
  rcases pickEqual_cases h with ⟨rfl, hnone⟩ | ⟨hcpl, hne, cs, a', rfl, hcase⟩
  · refine iff_of_true (Nat.zero_le _) fun ⟨hcpl, hcrowded⟩ => ?_
    rcases hnone with hc | hnil
    · exact hcpl hc
    · have hlen := congrArg List.length hnil
      rw [gatherSeqSets_eq_take, length_take, length_nil] at hlen
      have := hcrowded.1
      omega
  rw [picked_nTokens _ hcase.ne, and_iff_right hcpl]
  obtain ⟨m, hlevel, hm, hbound⟩ := rounds_level hne
  obtain ⟨hok, -, hsets, -, -⟩ := expand_gathered a nUbatch sequential hne
  have hlen : (a.gatherSeqSets nUbatch sequential).length = min (nUbatch + 1) (a.waitingSets sequential).length := by
    rw [gatherSeqSets_eq_take, length_take]
  have hcs : (a.rounds nUbatch sequential).1.length = (a.gatherSeqSets nUbatch sequential).length := by
    rw [← hsets, length_map]
    rfl
  -- with more than `n_ubatch` sets there is one round
  have hcrowd : nUbatch < (a.waitingSets sequential).length → m = 1 := by
    intro hlt
    rcases hbound with hone | hle
    · exact hone
    · have := Nat.le_mul_of_pos_left (a.gatherSeqSets nUbatch sequential).length hm
      omega
  have hleft : ∀ c ∈ (a.rounds nUbatch sequential).1, a.leftOf c.seqSet = m + c.remaining := fun c hc => by
    rw [(hok c hc).leftOf_eq, hlevel c hc]
  have hmem : ∀ c ∈ (a.rounds nUbatch sequential).1, c.seqSet ∈ (a.waitingSets sequential).take (nUbatch + 1) := by
    intro c hc
    rw [← gatherSeqSets_eq_take, ← hsets]
    exact List.mem_map_of_mem hc
  -- a set that is deferred for its tail
  have hspared : ∀ c ∈ (a.rounds nUbatch sequential).1, c.remaining ≠ 0 ∧ c.remaining < nKeepTail →
      ¬a.Crowded nUbatch sequential nKeepTail := by
    intro c hc hrem hcrowded
    have hone := hcrowd hcrowded.1
    have hS := hcrowded.2 _ (hmem c hc)
    rw [hleft c hc] at hS
    omega
  have hm_le : m ≤ nUbatch := by
    rcases hbound with rfl | hle
    · exact hpos
    · have := length_pos_iff.mpr hne
      exact (Nat.le_mul_of_pos_right m this).trans hle
  cases hcase with
  | keep n hn hkeep hlast =>
    have hlevel' : Level ((a.rounds nUbatch sequential).1.take (n + 1)) m := fun c hc => hlevel c (mem_of_mem_take hc)
    rw [hlevel'.length_flatMap, length_take, Nat.min_eq_left hn]
    by_cases hlt : nUbatch < (a.waitingSets sequential).length
    · obtain rfl := hcrowd hlt
      rw [Nat.one_mul]
      by_cases hall : n + 1 = (a.rounds nUbatch sequential).1.length
      · refine iff_of_false (by omega) (not_not.mpr ⟨hlt, fun S hS => ?_⟩)
        rw [← gatherSeqSets_eq_take, ← hsets] at hS
        obtain ⟨c, hc, rfl⟩ := List.mem_map.mp hS
        have hrem := hkeep c (by rw [hall, take_length]; exact hc)
        have := hleft c hc
        omega
      · refine iff_of_true (by omega) ?_
        have hnext : n + 1 < (a.rounds nUbatch sequential).1.length := by omega
        exact hspared _ (getElem_mem hnext) (hlast _ (getElem?_eq_getElem hnext))
    · refine iff_of_true ?_ fun hcrowded => hlt hcrowded.1
      rcases hbound with rfl | hle
      · omega
      · exact (Nat.mul_le_mul_left m (hn.trans_eq hcs)).trans hle
  | complete c rest hcs' hrem hfit =>
    have hc : c ∈ (a.rounds nUbatch sequential).1 := hcs' ▸ mem_cons_self
    refine iff_of_true ?_ (hspared c hc hrem)
    simpa [SeqCursor.remaining] using hfit
  | shorten c rest m' hcs' hrem hfit hm' =>
    have hc : c ∈ (a.rounds nUbatch sequential).1 := hcs' ▸ mem_cons_self
    refine iff_of_true ?_ (hspared c hc hrem)
    have := hlevel c hc
    simp only [flatMap_cons, flatMap_nil, append_nil, length_take]
    omega

end Size

theorem Picked.nTokens_le (p : Picked) : p.ubatch.1.nTokens ≤ p.idxs.length := by
  unfold Picked.ubatch
  split
  · exact Nat.zero_le _
  · exact le_rfl

theorem length_simpleLoop (nUbatch : Nat) : ∀ (is idxs : List Nat) (a : LlamaBatchAllocr),
    (simpleLoop nUbatch is idxs a).1.length ≤ max nUbatch idxs.length
  | [], idxs, _ => Nat.le_max_right ..
  | i :: is, idxs, a => by
      rw [simpleLoop]
      split
      · exact Nat.le_max_right ..
      · have hrec := length_simpleLoop nUbatch is (idxs ++ [i]) (a.takeToken i)
        rw [length_append, length_singleton] at hrec
        omega

theorem length_seqLoop (nUbatch : Nat) : ∀ (is : List Nat) (curSeqSet : Finset SeqId) (idxs : List Nat)
    (a : LlamaBatchAllocr), (seqLoop nUbatch is curSeqSet idxs a).1.length ≤ max nUbatch idxs.length
  | [], _, idxs, _ => Nat.le_max_right ..
  | i :: is, curSeqSet, idxs, a => by
      rw [seqLoop]
      split
      · exact Nat.le_max_right ..
      split
      · exact length_seqLoop nUbatch is curSeqSet idxs a
      · have hrec := length_seqLoop nUbatch is (a.batch.seqSet i) (idxs ++ [i]) (a.takeToken i)
        rw [length_append, length_singleton] at hrec
        omega

section Bound

variable {a a' : LlamaBatchAllocr} {nUbatch : Nat} {kind : SplitKind} {c : SplitCall}

/-- A ubatch has at most `n_ubatch` tokens, unless it comes from `split_equal` and more than `n_ubatch` sequence sets
waited for it. -/
theorem splitCall_nTokens_le_iff (hpos : 1 ≤ nUbatch) (h : splitCall kind nUbatch a = some (c, a')) :
    c.ubatch.nTokens ≤ nUbatch ↔ ¬kind.Crowded a nUbatch := by
  obtain ⟨p, hp, heq⟩ := map_eq_some_iff.mp h
  obtain ⟨rfl, -⟩ := Prod.mk.inj heq
  cases kind with
  | simple =>
    refine iff_of_true ?_ id
    obtain rfl := some.inj hp
    unfold pickSimple
    cases a.firstUnused with
    | none => exact Nat.zero_le _
    | some i =>
      have hlen := length_simpleLoop nUbatch (a.indicesAfter i) [i] (a.takeToken i)
      rw [length_singleton, Nat.max_eq_left hpos] at hlen
      exact (Picked.nTokens_le _).trans hlen
  | seq =>
    refine iff_of_true ?_ id
    obtain rfl := some.inj hp
    unfold pickSeq
    cases a.firstUnused with
    | none => exact Nat.zero_le _
    | some i =>
      have hlen := length_seqLoop nUbatch (a.indicesAfter i) (a.batch.seqSet i) [i] (a.takeToken i)
      rw [length_singleton, Nat.max_eq_left hpos] at hlen
      exact (Picked.nTokens_le _).trans hlen
  | equal sequential nKeepTail => exact pickEqual_nTokens_le_iff hpos hp

theorem splitCall_nTokens_le_iff_two :
    let inp : LlamaBatch :=
      { nTokens := 2, token := some fun _ => 0, embd := none, pos := none
        nSeqId := some fun _ => 1, seqId := some fun i _ => i, logits := none }
    ∃ a, init 1 inp 1 none 1 2 false = .ok a ∧ ∃ c a', splitCall (.equal false 0) 2 a = some (c, a') ∧
      (c.ubatch.nTokens ≤ 2 ↔ ¬SplitKind.Crowded (.equal false 0) a 2) := by
  intro inp
  exact ⟨_, init_of_checks (by decide) (by decide) (by decide +kernel) (by decide +kernel), _, _, rfl,
    splitCall_nTokens_le_iff (by decide) rfl⟩

/-- Two sequences, of which each has a token, in a ubatch for one token. -/
theorem splitCall_overfull :
    ¬∀ (nPosPerEmbd : Nat) (inp : LlamaBatch) (nVocab : Nat) (memory : Option LlamaMemory) (nEmbd nSeqMax : Nat)
      (outputAll : Bool) (a₀ : LlamaBatchAllocr), init nPosPerEmbd inp nVocab memory nEmbd nSeqMax outputAll = .ok a₀ →
      ∀ (kind : SplitKind) (nUbatch m : Nat) (calls : List SplitCall) (a : LlamaBatchAllocr), 1 ≤ nUbatch →
        kind.Ok a₀.batch nUbatch → splitCalls kind nUbatch m a₀ = some (calls, a) → ∀ c ∈ calls, c.ubatch.nTokens ≤ nUbatch := by
  intro h
  have hinit : init 1
      { nTokens := 2, token := some fun _ => 0, embd := none, pos := none
        nSeqId := some fun _ => 1, seqId := some fun i _ => i, logits := none } 1 none 1 2 false = .ok _ :=
    init_of_checks (by decide) (by decide) (by decide +kernel) (by decide +kernel)
  have hle := h 1 _ 1 none 1 2 false _ hinit (.equal false 0) 1 1 _ _ le_rfl ⟨by decide, by decide⟩ rfl _ (mem_singleton.mpr rfl)
  exact absurd hle (by decide +kernel)

end Bound

end LlamaCpp.LlamaBatchAllocr
