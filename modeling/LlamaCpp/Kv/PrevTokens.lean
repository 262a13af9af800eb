import LlamaCpp.Kv.NoHole
import Mathlib.Data.List.Fold

/-!
# The tokens before a token

`get_prev_tokens` collects one window of the cells of every stream into a table.  `Remembers` runs a cache
without a window along with a log of what was decoded and not removed.  The cells hold the log
(`Remembering`), so the table has the log's token at every place that is asked for, wherever the batch was
cut (`getPrevTokens_eq`).
-/

namespace LlamaCpp.KvCache

open List

/-- A sequence, a position and the token there. -/
abbrev Entry := SeqId × Int × Int

variable {c : KvConfig} {kv kv' : KvCache} {ubatch : LlamaUbatch} {sinfo : SlotInfo} {token : Nat → Int} {log : List Entry}
  {x : Entry} {n : Nat}

abbrev Has (cell : KvCell) (x : Entry) : Prop := x.1 ∈ cell.seq ∧ cell.pos = x.2.1 ∧ cell.ext.tok = x.2.2

/-- A cell of some stream holds the entry. -/
def Held (c : KvConfig) (kv : KvCache) (x : Entry) : Prop := ∃ t < c.nStream, ∃ i < c.kvSize, Has (kv.cell t i) x

/-- A ubatch of tokens, each of one sequence and behind everything cached of it. -/
structure Decodes (c : KvConfig) (kv : KvCache) (ubatch : LlamaUbatch) (token : Nat → Int) : Prop where
  ok : UbatchOk c ubatch
  text : ubatch.token = some token
  single : ∀ i < ubatch.nTokens, ∃ s ∈ ubatch.seqIdUnq, ubatch.seqId i = [s]
  behind : ∀ i < ubatch.nTokens, ∀ s ∈ ubatch.seqId i, ∀ p ∈ positions c kv s, p < ubatch.pos i
  distinct : ∀ i < ubatch.nTokens, ∀ j < ubatch.nTokens, ubatch.seqId i = ubatch.seqId j → ubatch.pos i = ubatch.pos j → i = j

/-- The entry of token `i`. -/
def entryOf (ubatch : LlamaUbatch) (token : Nat → Int) (i : Nat) : Entry :=
  ((ubatch.seqId i).headD 0, ubatch.pos i, token i)

def entriesOf (ubatch : LlamaUbatch) (token : Nat → Int) : List Entry :=
  (List.range ubatch.nTokens).map (entryOf ubatch token)

/-- What a removal takes from the log. -/
def Removes (seqId : Option SeqId) (p0 p1 : Int) (x : Entry) : Prop :=
  (∀ s ∈ seqId, x.1 = s) ∧ rangeLo p0 ≤ x.2.1 ∧ x.2.1 < rangeHi p1

instance (seqId : Option SeqId) (p0 p1 : Int) (x : Entry) : Decidable (Removes seqId p0 p1 x) :=
  inferInstanceAs (Decidable (_ ∧ _))

/-- The runs of a cache, and what was decoded and not removed.  A slot is one that `find_slot` could return. -/
inductive Remembers (c : KvConfig) : KvCache → List Entry → Prop
  | init : Remembers c (init c) []
  | decode {kv kv' : KvCache} {log : List Entry} {ubatch : LlamaUbatch} {token : Nat → Int} {sinfo : SlotInfo}
    (h : Remembers c kv log) (hu : Decodes c kv ubatch token) (hslot : Slot c kv ubatch sinfo)
    (hrun : kv.applyUbatch c sinfo ubatch = some kv') : Remembers c kv' (log ++ entriesOf ubatch token)
  | refuse {kv kv' : KvCache} {log : List Entry} {seqId : Option SeqId} {p0 p1 : Int} (h : Remembers c kv log)
    (hrun : kv.seqRm c seqId p0 p1 = some (kv', false)) : Remembers c kv' log
  | remove {kv kv' : KvCache} {log : List Entry} {seqId : Option SeqId} {p0 p1 : Int} (h : Remembers c kv log)
    (hrun : kv.seqRm c seqId p0 p1 = some (kv', true)) :
    Remembers c kv' (log.filter fun x => ¬Removes seqId p0 p1 x)

/-- The token of the log at a position, `LLAMA_TOKEN_NULL` if there is none. -/
def tokenAt (log : List Entry) (s : SeqId) (p : Int) : Int :=
  ((log.find? fun x => decide (x.1 = s ∧ x.2.1 = p)).map fun x => x.2.2).getD llamaTokenNull

/-- The cells hold the log, which has one token for a position. -/
structure Remembering (c : KvConfig) (kv : KvCache) (log : List Entry) : Prop where
  inv : kv.Inv c
  held : ∀ x, Held c kv x ↔ x ∈ log
  unique : ∀ x ∈ log, ∀ y ∈ log, x.1 = y.1 → x.2.1 = y.2.1 → x = y

theorem Held.mem_positions (hinv : kv.Inv c) (h : Held c kv x) : x.2.1 ∈ positions c kv x.1 := by
  obtain ⟨t, -, i, hi, hs, hp, -⟩ := h
  obtain rfl := hinv.owner t i hi x.1 hs
  exact ⟨i, hi, hs, hp⟩

theorem mem_entriesOf : x ∈ entriesOf ubatch token ↔ ∃ i < ubatch.nTokens, entryOf ubatch token i = x := by
  unfold entriesOf
  simp only [List.mem_map, mem_range]

/-! ## A placement -/

section Decode

variable {m : SeqId → Int} (hswa : c.swaType = .none) (hinv : kv.Inv c) (hu : Decodes c kv ubatch token)
  (hslot : Slot c kv ubatch sinfo) (hplaced : Placed c kv ubatch sinfo m kv')

include hswa hinv hu hslot

/-- Without a window, no position is overwritten. -/
theorem not_overwrites (s : SeqId) (p : Int) : ¬Overwrites kv sinfo.targets s p := by
  intro ho
  have hmask := (hslot.overwrites_masked hu.ok hinv ho).2.2
  unfold KvConfig.isMasked at hmask
  rw [hswa] at hmask
  cases hmask

include hplaced

theorem cell_placed {τ : Target} (hτ : τ ∈ sinfo.targets) :
    (kv'.cell τ.strm τ.idx).seq = (ubatch.seqId τ.i).toFinset ∧ (kv'.cell τ.strm τ.idx).pos = ubatch.pos τ.i ∧
      (kv'.cell τ.strm τ.idx).ext.tok = token τ.i := by
  have hm (s : SeqId) : m s = -1 := not_ne_iff.mp fun hne =>
    not_overwrites hswa hinv hu hslot s _ (hplaced.maxRm.attained s hne)
  have hpos := (hslot.targetOk hu.ok hinv hτ).pos_nonneg
  have hseq := placedCell_seq hinv hu.ok hslot hτ
  rw [hplaced.target τ hτ, KvCell.purge_eq_self fun s _ => by
    rw [hm s]
    exact Int.lt_of_lt_of_le (by decide) hpos]
  refine ⟨hseq, rfl, ?_⟩
  unfold placedCell ubatchExt
  rw [hu.text]
  simp

theorem cell_kept {t i : Nat} (hi : i < c.kvSize) (hout : (t, i) ∉ sinfo.targets.map Target.key) :
    kv'.cell t i = kv.cell t i := by
  have hm (s : SeqId) : m s = -1 := not_ne_iff.mp fun hne =>
    not_overwrites hswa hinv hu hslot s _ (hplaced.maxRm.attained s hne)
  rw [hplaced.other t i hi hout]
  refine KvCell.purge_eq_self fun s hs => ?_
  have hi' : i < (kv.vCells t).size := hinv.size t ▸ hi
  rw [hm s]
  exact Int.lt_of_lt_of_le (by decide) ((hinv.rep t).pos_nonneg hi' ((hinv.rep t).pos_ne_of_mem hi' hs))

theorem held_placed (hstream : 0 < c.nStream) (x : Entry) :
    Held c kv' x ↔ Held c kv x ∨ x ∈ entriesOf ubatch token := by
  rw [mem_entriesOf]
  constructor
  · rintro ⟨t, ht, i, hi, hs, hp, htok⟩
    by_cases hkey : (t, i) ∈ sinfo.targets.map Target.key
    · obtain ⟨τ, hτ, heq⟩ := List.mem_map.mp hkey
      obtain ⟨rfl, rfl⟩ := Prod.mk.inj heq
      obtain ⟨hseq, hpos, hext⟩ := cell_placed hswa hinv hu hslot hplaced hτ
      obtain ⟨g, hg, ii, hii, hτeq⟩ := (hslot.mem_targets hu.ok).mp hτ
      have hlt : τ.i < ubatch.nTokens := hτeq ▸ hu.ok.index_lt hg hii
      obtain ⟨s, -, hone⟩ := hu.single τ.i hlt
      rw [hseq, hone, List.mem_toFinset, mem_singleton] at hs
      refine .inr ⟨τ.i, hlt, Prod.ext ?_ (Prod.ext (hpos.symm.trans hp) (hext.symm.trans htok))⟩
      show (ubatch.seqId τ.i).headD 0 = x.1
      rw [hone, hs]
      rfl
    · rw [cell_kept hswa hinv hu hslot hplaced hi hkey] at hs hp htok
      exact .inl ⟨t, ht, i, hi, hs, hp, htok⟩
  · rintro (⟨t, ht, i, hi, hs, hp, htok⟩ | ⟨i, hi, rfl⟩)
    · have hkey : (t, i) ∉ sinfo.targets.map Target.key := by
        intro hkey
        -- the cell could be used, and is not empty
        obtain ⟨τ, hτ, heq⟩ := List.mem_map.mp hkey
        obtain ⟨rfl, rfl⟩ := Prod.mk.inj heq
        have hne : (kv.cell τ.strm τ.idx).pos ≠ -1 := (hinv.rep τ.strm).pos_ne_of_mem (hinv.size _ ▸ hi) hs
        obtain ⟨s, hs'⟩ := (hslot.atMostOne hu.ok hτ).resolve_left hne
        exact not_overwrites hswa hinv hu hslot s _ ⟨τ, hτ, rfl, hne, hs'⟩
      rw [← cell_kept hswa hinv hu hslot hplaced hi hkey] at hs hp htok
      exact ⟨t, ht, i, hi, hs, hp, htok⟩
    · obtain ⟨τ, hτ, rfl⟩ := hslot.exists_target hu.ok hi
      obtain ⟨hseq, hpos, hext⟩ := cell_placed hswa hinv hu hslot hplaced hτ
      obtain ⟨g, hg, ii, hii, hτeq⟩ := (hslot.mem_targets hu.ok).mp hτ
      obtain ⟨s, -, hone⟩ := hu.single τ.i hi
      refine ⟨τ.strm, ?_, τ.idx, (hslot.targetOk hu.ok hinv hτ).idx_lt, ?_, hpos, hext⟩
      · have hunq := hu.ok.unq_stream g hg
        rw [hτeq]
        show c.seqToStream (ubatch.seqIdUnq.getD g 0) < c.nStream
        unfold KvConfig.seqToStream
        unfold KvConfig.seqToStreamSize at hunq
        split
        · next hn => rwa [if_pos hn] at hunq
        · exact hstream
      · rw [hseq, List.mem_toFinset]
        show (ubatch.seqId τ.i).headD 0 ∈ ubatch.seqId τ.i
        rw [hone]
        exact mem_singleton_self s

end Decode

theorem Remembering.decode (h : Remembering c kv log) (hsh : c.shared = false) (hswa : c.swaType = .none)
    (hstream : 0 < c.nStream) (hu : Decodes c kv ubatch token) (hslot : Slot c kv ubatch sinfo)
    (hrun : kv.applyUbatch c sinfo ubatch = some kv') : Remembering c kv' (log ++ entriesOf ubatch token) := by
  obtain ⟨kv₁, m, hrun₁, hplaced⟩ := applyUbatch_spec h.inv hu.ok hslot hsh
  obtain rfl := Option.some.inj (hrun₁.symm.trans hrun)
  have hseq {i : Nat} (hi : i < ubatch.nTokens) : ubatch.seqId i = [(entryOf ubatch token i).1] := by
    obtain ⟨s, -, hone⟩ := hu.single i hi
    rw [entryOf, hone]
    rfl
  have hnew {x : Entry} (hx : x ∈ log) {i : Nat} (hi : i < ubatch.nTokens) (hkey : x.1 = (entryOf ubatch token i).1) :
      x.2.1 < ubatch.pos i := by
    refine hu.behind i hi x.1 ?_ _ (((h.held x).mpr hx).mem_positions h.inv)
    rw [hseq hi, hkey]
    exact mem_singleton_self _
  refine ⟨hplaced.inv, fun x => ?_, fun x hx y hy hs hp => ?_⟩
  · rw [held_placed hswa h.inv hu hslot hplaced hstream, h.held, List.mem_append]
  · rcases List.mem_append.mp hx with hx | hx
    · rcases List.mem_append.mp hy with hy | hy
      · exact h.unique x hx y hy hs hp
      · obtain ⟨i, hi, rfl⟩ := mem_entriesOf.mp hy
        exact absurd hp (hnew hx hi hs).ne
    · obtain ⟨i, hi, rfl⟩ := mem_entriesOf.mp hx
      rcases List.mem_append.mp hy with hy | hy
      · exact absurd hp (hnew hy hi hs.symm).ne'
      · obtain ⟨j, hj, rfl⟩ := mem_entriesOf.mp hy
        rw [hu.distinct i hi j hj (by rw [hseq hi, hseq hj, hs]) hp]

/-! ## A removal -/

theorem has_seqRm {cell : KvCell} {s : SeqId} : Has (cell.seqRm s) x ↔ Has cell x ∧ x.1 ≠ s := by
  unfold KvCell.seqRm
  split
  · next hempty =>
      refine iff_of_false (fun h => Finset.notMem_empty _ h.1) fun h => ?_
      exact Finset.notMem_empty _ (hempty ▸ Finset.mem_erase.mpr ⟨h.2, h.1.1⟩)
  · constructor
    · rintro ⟨hs, hp, htok⟩
      exact ⟨⟨Finset.mem_of_mem_erase hs, hp, htok⟩, Finset.ne_of_mem_erase hs⟩
    · rintro ⟨⟨hs, hp, htok⟩, hne⟩
      exact ⟨Finset.mem_erase.mpr ⟨hne, hs⟩, hp, htok⟩

/-- The sweep over every stream empties the cells of the range. -/
theorem cell_rmRange (hinv : kv.Inv c) {p0 p1 : Int} (hp0 : 0 ≤ p0) (n : Nat) :
    ((List.range n).foldl (fun kv t => kv.pass t (rmRange p0 p1)) kv).Inv c ∧ ∀ t, ∀ i < c.kvSize,
      ((List.range n).foldl (fun kv t => kv.pass t (rmRange p0 p1)) kv).cell t i =
        if t < n ∧ p0 ≤ (kv.cell t i).pos ∧ (kv.cell t i).pos < p1 then .blank else kv.cell t i := by
  induction n with
  | zero => exact ⟨hinv, fun t i _ => (if_neg fun h => Nat.not_lt_zero t h.1).symm⟩
  | succ n ih =>
    obtain ⟨hinv', hcell⟩ := ih
    rw [range_succ, foldl_append]
    refine ⟨hinv'.pass (acts_rmRange p0 p1 hp0) (fun _ _ => trivial) (guarded_subset fun _ => Finset.empty_subset _), fun t i hi => ?_⟩
    rw [foldl_cons, foldl_nil, pass_cell (acts_rmRange p0 p1 hp0), hcell t i hi, hinv'.size]
    rcases Nat.lt_trichotomy t n with hlt | rfl | hgt
    · rw [if_neg fun h => hlt.ne h.1]
      simp only [hlt, Nat.lt_succ_of_lt hlt, true_and]
    · simp only [hi, and_self, if_true, Nat.lt_irrefl, false_and, if_false, Nat.lt_succ_self, true_and]
    · rw [if_neg fun h => hgt.ne' h.1]
      simp only [Nat.not_lt.mpr hgt.le, Nat.not_lt.mpr (Nat.succ_le_of_lt hgt), false_and, if_false]

theorem has_rmCells (hinv : kv.Inv c) (seqId : Option SeqId) (p0 p1 : Int) {t i : Nat} (ht : t < c.nStream)
    (hi : i < c.kvSize) (x : Entry) :
    Has ((kv.rmCells c seqId (rangeLo p0) (rangeHi p1)).cell t i) x ↔
      Has (kv.cell t i) x ∧ ¬Removes seqId p0 p1 x := by
  cases seqId with
  | some s =>
    unfold rmCells
    rw [pass_cell (acts_seqRm_onSeq s _ _), hinv.size]
    have hremoves : Removes (some s) p0 p1 x ↔ x.1 = s ∧ rangeLo p0 ≤ x.2.1 ∧ x.2.1 < rangeHi p1 := by
      simp [Removes]
    rw [hremoves]
    by_cases hhere : t = c.seqToStream s ∧ i < c.kvSize
    · rw [if_pos hhere]
      split
      · next hon =>
          rw [has_seqRm]
          refine and_congr_right fun hx => not_congr ⟨fun heq => ⟨heq, ?_⟩, And.left⟩
          rw [← hx.2.1]
          exact hon.1
      · next hoff =>
          refine ⟨fun hx => ⟨hx, fun hrem => hoff ⟨?_, hrem.1 ▸ hx.1⟩⟩, And.left⟩
          rw [hx.2.1]
          exact hrem.2
    · rw [if_neg hhere]
      refine ⟨fun hx => ⟨hx, fun hrem => hhere ⟨?_, hi⟩⟩, And.left⟩
      exact (hinv.owner t i hi s (hrem.1 ▸ hx.1)).symm
  | none =>
    have hremoves : Removes none p0 p1 x ↔ rangeLo p0 ≤ x.2.1 ∧ x.2.1 < rangeHi p1 := by
      simp [Removes]
    have hcell : (kv.rmCells c none (rangeLo p0) (rangeHi p1)).cell t i = _ :=
      (cell_rmRange hinv (rangeLo_nonneg p0) c.nStream).2 t i hi
    rw [hcell, hremoves]
    split
    · next hin =>
        refine iff_of_false (fun h => Finset.notMem_empty _ h.1) fun h => h.2 ?_
        rw [← h.1.2.1]
        exact hin.2
    · next hout =>
        refine ⟨fun hx => ⟨hx, fun hrem => hout ⟨ht, ?_⟩⟩, And.left⟩
        rw [hx.2.1]
        exact hrem

theorem Remembering.remove (h : Remembering c kv log) (hsh : c.shared = false) {seqId : Option SeqId} {p0 p1 : Int}
    (hrun : kv.seqRm c seqId p0 p1 = some (kv', true)) :
    Remembering c kv' (log.filter fun x => ¬Removes seqId p0 p1 x) := by
  refine ⟨h.inv.seqRm hrun, fun x => ?_, fun x hx y hy => ?_⟩
  · rw [mem_filter, decide_eq_true_eq, ← h.held]
    rcases seqRm_cases hrun with ⟨rfl, hshared | hempty | hfalse⟩ | ⟨-, -, -, rfl⟩
    · rw [hsh] at hshared
      cases hshared
    · exact (and_iff_left fun hrem => by
        have hlo := hrem.2.1
        have hhi := hrem.2.2
        omega).symm
    · cases hfalse
    · constructor
      · rintro ⟨t, ht, i, hi, hx⟩
        obtain ⟨hx, hrem⟩ := (has_rmCells h.inv seqId p0 p1 ht hi x).mp hx
        exact ⟨⟨t, ht, i, hi, hx⟩, hrem⟩
      · rintro ⟨⟨t, ht, i, hi, hx⟩, hrem⟩
        exact ⟨t, ht, i, hi, (has_rmCells h.inv seqId p0 p1 ht hi x).mpr ⟨hx, hrem⟩⟩
  · exact h.unique x (mem_of_mem_filter hx) y (mem_of_mem_filter hy)

/-- In every run the cells hold the log. -/
theorem Remembers.remembering (h : Remembers c kv log) (hsh : c.shared = false) (hswa : c.swaType = .none)
    (hstream : 0 < c.nStream) : Remembering c kv log := by
  induction h with
  | init =>
    refine ⟨inv_init, fun x => iff_of_false ?_ not_mem_nil, fun x hx => absurd hx not_mem_nil⟩
    rintro ⟨t, -, i, -, hs, -⟩
    exact Finset.notMem_empty _ hs
  | decode _ hu hslot hrun ih => exact ih.decode hsh hswa hstream hu hslot hrun
  | refuse _ hrun ih =>
    rcases seqRm_cases hrun with ⟨rfl, -⟩ | ⟨-, hfalse, -⟩
    · exact ih
    · cases hfalse
  | remove _ hrun ih => exact ih.remove hsh hrun

/-! ## The table -/

theorem mem_forEachTokenIn {cells : KvCells} (hrep : KvCells.Rep cells) {seqs : Finset SeqId}
    {p0 p1 : Int} : x ∈ cells.forEachTokenIn seqs p0 p1 ↔
      (∃ i < cells.size, Has (cells.cell i) x) ∧ x.1 ∈ seqs ∧ p0 ≤ x.2.1 ∧ x.2.1 < p1 := by
  unfold KvCells.forEachTokenIn
  rw [mem_flatMap]
  constructor
  · rintro ⟨i, hi, hx⟩
    split at hx
    · cases hx
    · next hin =>
        obtain ⟨s, hs, rfl⟩ := List.mem_map.mp hx
        have hmem := Finset.mem_inter.mp (of_decide_eq_true (mem_filter.mp hs).2)
        push Not at hin
        exact ⟨⟨i, ((hrep.used_iff i).mp ((Finset.mem_sort _).mp hi)).1, hmem.1, rfl, rfl⟩, hmem.2, hin⟩
  · rintro ⟨⟨i, hi, hs, hp, htok⟩, hseqs, hlo, hhi⟩
    refine ⟨i, (Finset.mem_sort _).mpr ((hrep.used_iff i).mpr ⟨hi, hrep.pos_ne_of_mem hi hs⟩), ?_⟩
    rw [if_neg (by
      rw [← hp] at hlo hhi
      show ¬(cells.pos i < p0 ∨ p1 ≤ cells.pos i)
      exact not_or.mpr ⟨Int.not_lt.mpr hlo, Int.not_le.mpr hhi⟩)]
    refine List.mem_map.mpr ⟨x.1, mem_filter.mpr ⟨mem_finRange x.1, ?_⟩, Prod.ext rfl (Prod.ext hp htok)⟩
    exact decide_eq_true (Finset.mem_inter.mpr ⟨hs, hseqs⟩)

theorem toInt32_of_lt (hn : n < 2 ^ 31) : toInt32 n = n :=
  Int.bmod_eq_of_le (by omega) (by omega)

/-- The window holds the log at every place in front of a token. -/
theorem mem_history (h : Remembering c kv log) (hunq : ubatch.seqIdUnq.length = ubatch.nSeqsUnq)
    (hn : n < 2 ^ 31) (hseq : x.1 ∈ ubatch.seqIdUnq) {i : Nat} (hi : i < ubatch.nTokens)
    (hlo : ubatch.pos i - n ≤ x.2.1) (hhi : x.2.1 < ubatch.pos i) :
    x ∈ kv.history c ubatch n ↔ x ∈ log := by
  have hpos : ubatch.pos i ∈ (List.range ubatch.nTokens).map ubatch.pos := List.mem_map_of_mem (mem_range.mpr hi)
  have hmin := min_le_of_le' llamaPosMax hpos le_rfl
  have hmax := le_max_of_le' (-llamaPosMax - 1) hpos le_rfl
  rw [← foldl_eq_foldr] at hmin hmax
  rw [← h.held]
  unfold history Held
  rw [mem_flatMap]
  refine exists_congr fun t => ?_
  rw [mem_range, mem_forEachTokenIn (h.inv.rep t), h.inv.size t, ← hunq, take_length, List.mem_toFinset, toInt32_of_lt hn]
  refine and_congr_right fun _ => and_iff_left ⟨hseq, ?_, ?_⟩
  · omega
  · exact hhi.trans_le hmax

/-- Two lists with the same entries at a place, of which there is one, are searched alike. -/
theorem find?_eq {l l' : List Entry} {p : Entry → Bool} (hmem : ∀ x, p x = true → (x ∈ l ↔ x ∈ l'))
    (hone : ∀ x ∈ l', ∀ y ∈ l', p x = true → p y = true → x = y) : l.find? p = l'.find? p := by
  cases hfind : l.find? p with
  | none =>
    rw [find?_eq_none] at hfind
    exact (find?_eq_none.mpr fun x hx hp => hfind x ((hmem x hp).mpr hx) hp).symm
  | some x =>
    have hp := find?_some hfind
    have hx := (hmem x hp).mp (mem_of_find?_eq_some hfind)
    cases hfind' : l'.find? p with
    | none => exact absurd hp (find?_eq_none.mp hfind' x hx)
    | some y => rw [hone x hx y (mem_of_find?_eq_some hfind') hp (find?_some hfind')]

theorem prevToken_history (h : Remembering c kv log) (hunq : ubatch.seqIdUnq.length = ubatch.nSeqsUnq)
    (hn : n < 2 ^ 31) {s : SeqId} (hseq : s ∈ ubatch.seqIdUnq) {i : Nat} (hi : i < ubatch.nTokens)
    {p : Int} (hlo : ubatch.pos i - n ≤ p) (hhi : p < ubatch.pos i) :
    (prevToken (kv.history c ubatch n) s p).getD llamaTokenNull = tokenAt log s p := by
  unfold prevToken tokenAt
  rw [find?_eq fun x hx => ?_]
  · intro x hx y hy hpx hpy
    obtain ⟨hs, hp⟩ := of_decide_eq_true hpx
    obtain ⟨hs', hp'⟩ := of_decide_eq_true hpy
    exact h.unique x hx y hy (hs.trans hs'.symm) (hp.trans hp'.symm)
  · obtain ⟨rfl, rfl⟩ := of_decide_eq_true hx
    rw [mem_reverse, mem_history h hunq hn hseq hi hlo hhi]

theorem tokenAt_neg (h : Remembering c kv log) (s : SeqId) {p : Int} (hp : p < 0) : tokenAt log s p = llamaTokenNull := by
  have hnone : log.find? (fun x => decide (x.1 = s ∧ x.2.1 = p)) = none := by
    refine find?_eq_none.mpr fun x hx hkey => ?_
    obtain ⟨-, rfl⟩ := of_decide_eq_true hkey
    exact Int.not_le.mpr hp (positions_nonneg h.inv (((h.held x).mpr hx).mem_positions h.inv))
  unfold tokenAt
  rw [hnone]
  rfl

/-- After a ubatch was placed, what is returned for a token is the log's token at each position in front of it. -/
theorem getPrevTokens_eq (hsh : c.shared = false) (hswa : c.swaType = .none) (hstream : 0 < c.nStream)
    (h : Remembers c kv log) (hu : Decodes c kv ubatch token) (hslot : Slot c kv ubatch sinfo)
    (hrun : kv.applyUbatch c sinfo ubatch = some kv') {n : Nat} (hn : n < 2 ^ 31) :
    kv'.getPrevTokens c ubatch n = (List.range ubatch.nTokens).flatMap fun i => (List.range n).map fun j =>
      tokenAt (log ++ entriesOf ubatch token) ((ubatch.seqId i).headD 0) (ubatch.pos i - (n - j : Nat)) := by
  have hrem := (Remembers.decode h hu hslot hrun).remembering hsh hswa hstream
  unfold getPrevTokens
  refine flatMap_congr fun i hi => map_congr_left fun j hj => ?_
  obtain ⟨s, hs, hone⟩ := hu.single i (mem_range.mp hi)
  have hj := mem_range.mp hj
  rw [toInt32_of_lt (by omega), hone]
  dsimp only [headD_cons]
  split
  · next hneg => exact (tokenAt_neg hrem s hneg).symm
  · exact prevToken_history hrem hu.ok.unq_length hn hs (mem_range.mp hi) (by omega) (by omega)

/-- Two sequences in one ubatch: only the second token of the first has one in front of it. -/
theorem getPrevTokens_two : ∃ kv',
    (init (unifiedConfig 4 .none)).applyUbatch (unifiedConfig 4 .none) ⟨0, 0, [0], [[0, 1, 2]]⟩
      (textUbatch [(0, 0), (1, 0), (0, 1)]) = some kv' ∧
    kv'.getPrevTokens (unifiedConfig 4 .none) (textUbatch [(0, 0), (1, 0), (0, 1)]) 2 = [-1, -1, -1, -1, -1, 0] := by
  have hok : UbatchOk (unifiedConfig 4 .none) (textUbatch [(0, 0), (1, 0), (0, 1)]) :=
    textUbatch_ok (by decide) (by decide) (by decide)
  have hu : Decodes (unifiedConfig 4 .none) (init (unifiedConfig 4 .none)) (textUbatch [(0, 0), (1, 0), (0, 1)]) fun _ => 0 :=
    { ok := hok
      text := rfl
      single := by decide +kernel
      behind := fun _ _ _ _ _ ⟨_, _, hs, _⟩ => absurd hs (Finset.notMem_empty _)
      distinct := by decide }
  have hfind : (init (unifiedConfig 4 .none)).findSlot (unifiedConfig 4 .none)
      (textUbatch [(0, 0), (1, 0), (0, 1)]) false = some ⟨0, 0, [0], [[0, 1, 2]]⟩ := by decide +kernel
  have hslot := slot_of_findSlot inv_init hok hfind rfl
  obtain ⟨kv', m, hrun, -⟩ := applyUbatch_spec inv_init hok hslot rfl
  exact ⟨kv', hrun, (getPrevTokens_eq rfl rfl (by decide) .init hu hslot hrun (by decide)).trans (by decide)⟩

end LlamaCpp.KvCache
