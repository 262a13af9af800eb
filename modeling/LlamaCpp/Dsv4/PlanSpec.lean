import LlamaCpp.Dsv4.CompPlan
import LlamaCpp.Lib.Loops

/-!
# What a plan contains

The loops of `dsv4_build_comp_plan` over the tokens and their sequences, as one list of pairs of a
token and a sequence (`entries`).  The pairs at the end of a block (`blocks`) give the rows that are
written and read; for every row of the state that a pair falls on, the last one is persisted.
-/

namespace LlamaCpp.Dsv4

open List Option

/-- The result of a loop of lookups. -/
theorem mapM_eq_map {α β : Type} {f : α → Option β} (d : β) {xs : List α} {ys : List β} (h : xs.mapM f = some ys) :
    ys = xs.map fun x => (f x).getD d := by
  induction Loops.mapM_eq_some.mp h with
  | nil => rfl
  | cons hone hrest ih => rw [map_cons, hone, getD_some, ← ih (Loops.mapM_eq_some.mpr hrest)]

section Pairs

variable (p : CompParams) (ubatch : LlamaUbatch)

def streamOf (seqId : SeqId) : Nat := if p.nStream ≤ 1 then 0 else seqId.val

/-- The pairs of a token and one of its sequences, in the order of the loops. -/
def entries : List (Nat × SeqId) :=
  (validTokens ubatch).flatMap fun i => (ubatch.seqId i).map fun seqId => (i, seqId)

def entryPos (e : Nat × SeqId) : Nat := (ubatch.pos e.1).toNat

/-- The row of the state that the token falls on. -/
def entryDst (e : Nat × SeqId) : Nat := streamOf p e.2 * p.stateSize + entryPos ubatch e % p.stateSize

/-- The row of the compressed cache for the block that ends with the token. -/
def entryRow (e : Nat × SeqId) : Nat := streamOf p e.2 * p.kvSize + entryPos ubatch e / p.ratio

/-- The sources of `ratio` positions. -/
def reads (e : Nat × SeqId) (start : Int) : List Nat :=
  (List.range p.ratio).map fun j : Nat => (stateSourceIdx p ubatch e.2 (start + j)).getD 0

/-- The sources of the block that ends with the token. -/
def curOf (e : Nat × SeqId) : List Nat := reads p ubatch e ((entryPos ubatch e + 1 - p.ratio : Nat) : Int)

/-- The sources of the block in front of it. -/
def prevOf (e : Nat × SeqId) : List Nat :=
  if p.overlap then reads p ubatch e (((entryPos ubatch e + 1 - p.ratio : Nat) : Int) - p.ratio) else []

/-- The token is the last one of a block. -/
def AtEnd (e : Nat × SeqId) : Prop := (entryPos ubatch e + 1) % p.ratio = 0

instance (e : Nat × SeqId) : Decidable (AtEnd p ubatch e) := inferInstanceAs (Decidable (_ = _))

def blocks : List (Nat × SeqId) := (entries ubatch).filter fun e => AtEnd p ubatch e

def HasStream (seqId : SeqId) : Prop := p.nStream ≤ 1 ∨ seqId.val < p.nStream

end Pairs

section Loop

variable {p : CompParams} {ubatch : LlamaUbatch} {es : List (Nat × SeqId)} {rows : List PersistRow}

theorem streamOffset_eq_some {seqId : SeqId} {size off : Nat} :
    streamOffset p.nStream seqId size = some off ↔ HasStream p seqId ∧ off = streamOf p seqId * size := by
  unfold streamOffset HasStream streamOf
  split
  · next hone =>
    rw [some_inj, Nat.zero_mul]
    exact ⟨fun h => ⟨.inl hone, h.symm⟩, fun h => h.2.symm⟩
  · next hmany =>
    split
    · next hout => exact iff_of_false nofun fun h => h.1.elim hmany (Nat.not_lt.mpr hout)
    · next hin =>
      rw [some_inj]
      exact ⟨fun h => ⟨.inr (Nat.not_le.mp hin), h.symm⟩, fun h => h.2.symm⟩

/-- The loops over the tokens and their sequences are one loop. -/
theorem foldlM_planToken (c : Commits) :
    (List.range ubatch.nTokens).foldlM (planToken p ubatch) c =
      (entries ubatch).foldlM (fun c e => planSeq p ubatch e.1 (entryPos ubatch e) c e.2) c := by
  unfold entries validTokens
  induction List.range ubatch.nTokens generalizing c with
  | nil => rfl
  | cons i is ih =>
    rw [foldlM_cons, filter_cons]
    unfold planToken
    split
    · next hneg =>
      rw [if_neg (by simpa using hneg)]
      exact ih c
    · next hpos =>
      rw [if_pos (by simpa using hpos), flatMap_cons, foldlM_append, foldlM_map]
      exact bind_congr fun c => ih c

/-- What the loop over some of the pairs collects. -/
structure Collected (p : CompParams) (ubatch : LlamaUbatch) (es : List (Nat × SeqId)) (c c' : Commits) : Prop where
  streams : ∀ e ∈ es, HasStream p e.2
  persistRows : c'.persistRows =
    es.foldl (fun rows e => persist (entryDst p ubatch e) e.1 (entryPos ubatch e) rows) c.persistRows
  prevReads : c'.prevReads = c.prevReads ++ (es.filter fun e => AtEnd p ubatch e).flatMap (prevOf p ubatch)
  curReads : c'.curReads = c.curReads ++ (es.filter fun e => AtEnd p ubatch e).flatMap (curOf p ubatch)
  writeIdxs : c'.writeIdxs = c.writeIdxs ++ (es.filter fun e => AtEnd p ubatch e).map (entryRow p ubatch)

theorem planSeq_collected {e : Nat × SeqId} {c c' : Commits}
    (h : planSeq p ubatch e.1 (entryPos ubatch e) c e.2 = some c') : Collected p ubatch [e] c c' := by
  unfold planSeq at h
  obtain ⟨off, hoff, h⟩ := bind_eq_some_iff.mp h
  obtain ⟨hstream, rfl⟩ := streamOffset_eq_some.mp hoff
  have hstreams : ∀ e' ∈ [e], HasStream p e'.2 := by simpa using hstream
  split at h
  · next hmid =>
    have hnot : ¬decide (AtEnd p ubatch e) = true := fun h => hmid (of_decide_eq_true h)
    have hfilter : [e].filter (fun e => AtEnd p ubatch e) = [] := by
      rw [filter_cons, if_neg hnot, filter_nil]
    obtain rfl := some.inj h
    constructor
    · exact hstreams
    · rfl
    all_goals simp [hfilter]
  · next hend =>
    have hat : decide (AtEnd p ubatch e) = true := decide_eq_true (not_not.mp hend)
    have hfilter : [e].filter (fun e => AtEnd p ubatch e) = [e] := by
      rw [filter_cons, if_pos hat, filter_nil]
    obtain ⟨cacheOff, hcache, h⟩ := bind_eq_some_iff.mp h
    obtain ⟨-, rfl⟩ := streamOffset_eq_some.mp hcache
    obtain ⟨prev, hprev, h⟩ := bind_eq_some_iff.mp h
    obtain ⟨cur, hcur, h⟩ := bind_eq_some_iff.mp h
    obtain rfl := some.inj h
    have hprevEq : prev = prevOf p ubatch e := by
      unfold prevOf
      unfold prevIdxs at hprev
      split at hprev
      · next hoverlap =>
        rw [if_pos hoverlap]
        exact mapM_eq_map 0 hprev
      · next hplain =>
        rw [if_neg hplain]
        exact (some.inj hprev).symm
    have hcurEq : cur = curOf p ubatch e := mapM_eq_map 0 hcur
    constructor
    · exact hstreams
    · rfl
    · simp [hfilter, hprevEq]
    · simp [hfilter, hcurEq]
    · simp [hfilter, entryRow]

theorem Collected.trans {es' : List (Nat × SeqId)} {c c' c'' : Commits} (h : Collected p ubatch es c c')
    (h' : Collected p ubatch es' c' c'') : Collected p ubatch (es ++ es') c c'' where
  streams e he := (List.mem_append.mp he).elim (h.streams e) (h'.streams e)
  persistRows := by rw [h'.persistRows, h.persistRows, foldl_append]
  prevReads := by rw [h'.prevReads, h.prevReads, filter_append, flatMap_append, append_assoc]
  curReads := by rw [h'.curReads, h.curReads, filter_append, flatMap_append, append_assoc]
  writeIdxs := by rw [h'.writeIdxs, h.writeIdxs, filter_append, map_append, append_assoc]

theorem foldlM_collected {c c' : Commits}
    (h : es.foldlM (fun c e => planSeq p ubatch e.1 (entryPos ubatch e) c e.2) c = some c') :
    Collected p ubatch es c c' := by
  induction es generalizing c with
  | nil =>
    obtain rfl := some.inj h
    constructor
    · exact fun _ he => absurd he not_mem_nil
    all_goals simp
  | cons e es ih =>
    obtain ⟨mid, hone, hrest⟩ := bind_eq_some_iff.mp h
    exact (planSeq_collected hone).trans (ih hrest)

/-! ## The persisted rows -/

/-- The row that a list of persisted rows has after one more token. -/
theorem mem_persist {dst src pos : Nat} {row : PersistRow} (h : row ∈ persist dst src pos rows) :
    row ∈ rows ∨ row = ⟨dst, src, pos⟩ := by
  induction rows with
  | nil => exact .inr (mem_singleton.mp h)
  | cons r rows ih =>
    unfold persist at h
    split at h
    · split at h
      · rcases mem_cons.mp h with rfl | h
        · exact .inr rfl
        · exact .inl (mem_cons_of_mem r h)
      · exact .inl h
    · rcases mem_cons.mp h with rfl | h
      · exact .inl mem_cons_self
      · exact (ih h).imp_left (mem_cons_of_mem r)

theorem persist_dst {dst src pos : Nat} :
    (persist dst src pos rows).map (·.dst) = rows.map (·.dst) ∧ dst ∈ rows.map (·.dst) ∨
      (persist dst src pos rows).map (·.dst) = rows.map (·.dst) ++ [dst] ∧ dst ∉ rows.map (·.dst) := by
  induction rows with
  | nil => exact .inr ⟨rfl, not_mem_nil⟩
  | cons r rows ih =>
    unfold persist
    split
    · next heq =>
      refine .inl ⟨?_, heq ▸ mem_cons_self⟩
      split <;> simp [heq]
    · next hne =>
      rcases ih with ⟨hmap, hmem⟩ | ⟨hmap, hnot⟩
      · exact .inl ⟨congrArg (r.dst :: ·) hmap, mem_cons_of_mem _ hmem⟩
      · refine .inr ⟨congrArg (r.dst :: ·) hmap, ?_⟩
        rw [map_cons, mem_cons, not_or]
        exact ⟨fun h => hne h.symm, hnot⟩

/-- A persisted position is not lowered. -/
theorem persist_le {dst src pos : Nat} :
    (∀ row ∈ rows, ∃ row' ∈ persist dst src pos rows, row'.dst = row.dst ∧ row.pos ≤ row'.pos) ∧
      ∃ row' ∈ persist dst src pos rows, row'.dst = dst ∧ pos ≤ row'.pos := by
  induction rows with
  | nil => exact ⟨fun _ h => absurd h not_mem_nil, _, mem_singleton_self _, rfl, Nat.le_refl _⟩
  | cons r rows ih =>
    unfold persist
    split
    · next heq =>
      split
      · next hlt =>
        refine ⟨fun row hrow => ?_, _, mem_cons_self, rfl, Nat.le_refl _⟩
        rcases mem_cons.mp hrow with rfl | hrow
        · exact ⟨_, mem_cons_self, heq.symm, Nat.le_of_lt hlt⟩
        · exact ⟨row, mem_cons_of_mem _ hrow, rfl, Nat.le_refl _⟩
      · next hge =>
        exact ⟨fun row hrow => ⟨row, hrow, rfl, Nat.le_refl _⟩, r, mem_cons_self, heq, Nat.not_lt.mp hge⟩
    · obtain ⟨hall, row', hrow', hdst, hle⟩ := ih
      refine ⟨fun row hrow => ?_, row', mem_cons_of_mem r hrow', hdst, hle⟩
      rcases mem_cons.mp hrow with rfl | hrow
      · exact ⟨row, mem_cons_self, rfl, Nat.le_refl _⟩
      · obtain ⟨row', hrow', hsame⟩ := hall row hrow
        exact ⟨row', mem_cons_of_mem r hrow', hsame⟩

/-- The persisted rows after some of the pairs. -/
structure Persisted (p : CompParams) (ubatch : LlamaUbatch) (es : List (Nat × SeqId)) (rows : List PersistRow) :
    Prop where
  nodup : (rows.map (·.dst)).Nodup
  source : ∀ row ∈ rows, ∃ e ∈ es, row = ⟨entryDst p ubatch e, e.1, entryPos ubatch e⟩
  last : ∀ e ∈ es, ∃ row ∈ rows, row.dst = entryDst p ubatch e ∧ entryPos ubatch e ≤ row.pos

theorem Persisted.step (h : Persisted p ubatch es rows) (e : Nat × SeqId) :
    Persisted p ubatch (es ++ [e]) (persist (entryDst p ubatch e) e.1 (entryPos ubatch e) rows) where
  nodup := by
    rcases @persist_dst rows (entryDst p ubatch e) e.1 (entryPos ubatch e) with ⟨hmap, -⟩ | ⟨hmap, hnot⟩
    · exact hmap ▸ h.nodup
    · rw [hmap]
      refine nodup_append.mpr ⟨h.nodup, nodup_cons.mpr ⟨not_mem_nil, .nil⟩, ?_⟩
      rintro a ha b hb rfl
      exact hnot (mem_singleton.mp hb ▸ ha)
  source row hrow := by
    rcases mem_persist hrow with hrow | rfl
    · obtain ⟨e', he', heq⟩ := h.source row hrow
      exact ⟨e', mem_append_left _ he', heq⟩
    · exact ⟨e, mem_append_right _ (mem_singleton_self e), rfl⟩
  last e' he' := by
    obtain ⟨hall, hnew⟩ := @persist_le rows (entryDst p ubatch e) e.1 (entryPos ubatch e)
    rcases List.mem_append.mp he' with he' | he'
    · obtain ⟨row, hrow, hdst, hle⟩ := h.last e' he'
      obtain ⟨row', hrow', hdst', hle'⟩ := hall row hrow
      exact ⟨row', hrow', hdst'.trans hdst, Nat.le_trans hle hle'⟩
    · obtain rfl := mem_singleton.mp he'
      exact hnew

theorem persisted_foldl {done : List (Nat × SeqId)} (h : Persisted p ubatch done rows) :
    Persisted p ubatch (done ++ es)
      (es.foldl (fun rows e => persist (entryDst p ubatch e) e.1 (entryPos ubatch e) rows) rows) := by
  induction es generalizing done rows with
  | nil =>
    rw [append_nil]
    exact h
  | cons e es ih =>
    have hrest := ih (h.step e)
    rwa [append_assoc] at hrest

/-! ## When there is a plan -/

end Loop

end LlamaCpp.Dsv4
