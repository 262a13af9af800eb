import LlamaCpp.Dsv4.PlanSpec
import LlamaCpp.Lib.Runs

/-!
# The windows of the compressor

Runs of micro-batches whose positions are consecutive in every stream.  `History` is what was processed:
how many tokens of a stream, and their rows.  `Good` relates it to the state: the ring has the last
tokens, and row `b` of a stream of the compressed cache has the window of block `b`.
-/

namespace LlamaCpp.Dsv4

open List Option

variable {V : Type} {ubatch : LlamaUbatch}

/-! ## What was processed -/

def streamEntries (p : CompParams) (ubatch : LlamaUbatch) (s : Nat) : List (Nat × SeqId) :=
  (entries ubatch).filter fun e => streamOf p e.2 = s

/-- How many tokens of every stream were processed, and their rows by position. -/
structure History (V : Type) where
  count : Nat → Nat := fun _ => 0
  value : Nat → Nat → Option V := fun _ _ => none

namespace History

/-- One more micro-batch. -/
def push (h : History V) (p : CompParams) (x : CompInput V) : History V where
  count s := h.count s + (streamEntries p x.ubatch s).length
  value s pos :=
    match (streamEntries p x.ubatch s).find? fun e => entryPos x.ubatch e = pos with
    | some e => some (x.rows e.1)
    | none => h.value s pos

/-- The rows that belong to block `b`: with overlap, those of the preceding block come first, and zeros
in front of the first block. -/
def window (h : History V) (p : CompParams) (s b : Nat) : List (Option V) :=
  (if p.overlap then
    (List.range p.ratio).map fun j => if b = 0 then none else h.value s ((b - 1) * p.ratio + j)
  else []) ++ (List.range p.ratio).map fun j => h.value s (b * p.ratio + j)

end History

/-- The micro-batch goes on where its streams have stopped, and the cells of the streams hold it. -/
structure Fits (p : CompParams) (h : History V) (x : CompInput V) : Prop where
  pos_nonneg : ∀ i < x.ubatch.nTokens, 0 ≤ x.ubatch.pos i
  seqs : ∀ i < x.ubatch.nTokens, ∀ seqId ∈ x.ubatch.seqId i, seqId ∈ x.ubatch.seqIdUnq
  unique : x.ubatch.seqIdUnq.length = x.ubatch.nSeqsUnq
  consecutive : ∀ s < p.nStream, ((streamEntries p x.ubatch s).map (entryPos x.ubatch)).Perm
    ((List.range (streamEntries p x.ubatch s).length).map (h.count s + ·))
  capacity : ∀ s < p.nStream, (h.push p x).count s ≤ p.nCells

/-- What the state has of what was processed. -/
structure Good (p : CompParams) (st : CompState V) (h : History V) : Prop where
  known : ∀ s < p.nStream, ∀ pos < h.count s, (h.value s pos).isSome
  ring : ∀ s < p.nStream, ∀ pos < h.count s, h.count s ≤ pos + p.stateSize →
    st.ring (s * p.stateSize + pos % p.stateSize) = h.value s pos
  cache : ∀ s < p.nStream, ∀ b, (b + 1) * p.ratio ≤ h.count s →
    st.cache (s * p.kvSize + b) = some (h.window p s b)

/-- What a plan does: every block that is completed is written to its row, from its window, and every
other row that is written is not one of a completed block. -/
structure PlanOk (p : CompParams) (st : CompState V) (h : History V) (x : CompInput V) (plan : CompPlan) : Prop where
  nodup : plan.stateWriteIdxs.Nodup
  blocks : ∀ s < p.nStream, ∀ b, h.count s < (b + 1) * p.ratio → (b + 1) * p.ratio ≤ (h.push p x).count s →
    ∃ k, plan.stateWriteIdxs[k]? = some (s * p.kvSize + b) ∧
      plan.window p (sourceRow p st.ring x) k = (h.push p x).window p s b
  others : ∀ row ∈ plan.stateWriteIdxs,
    (∃ s < p.nStream, ∃ b, h.count s < (b + 1) * p.ratio ∧ (b + 1) * p.ratio ≤ (h.push p x).count s ∧
      row = s * p.kvSize + b) ∨
    ∀ s < p.nStream, ∀ b, (b + 1) * p.ratio ≤ (h.push p x).count s → row ≠ s * p.kvSize + b

/-! ## What a plan is made of -/

structure PlanFacts (p : CompParams) (ubatch : LlamaUbatch) (plan : CompPlan) : Prop where
  streams : ∀ e ∈ entries ubatch, HasStream p e.2
  single : p.nStream ≤ 1 → ubatch.nSeqsUnq ≤ 1
  persisted : ∃ rows, Persisted p ubatch (entries ubatch) rows ∧
    plan.statePersistDstIdxs = rows.map (·.dst) ∧ plan.statePersistSrcIdxs = rows.map (·.src)
  writes : (plan.stateWriteIdxs = (blocks p ubatch).map (entryRow p ubatch) ∧
      plan.stateReadIdxs = (blocks p ubatch).flatMap (prevOf p ubatch) ++ (blocks p ubatch).flatMap (curOf p ubatch)) ∨
    blocks p ubatch = [] ∧ ∃ e ∈ entries ubatch,
      plan.stateWriteIdxs = [streamOf p e.2 * p.kvSize + p.kvSize - 1]

theorem Persisted.perm {p : CompParams} {es : List (Nat × SeqId)} {rows rows' : List PersistRow}
    (h : Persisted p ubatch es rows) (hperm : rows'.Perm rows) : Persisted p ubatch es rows' where
  nodup := (hperm.map _).nodup_iff.mpr h.nodup
  source row hrow := h.source row (hperm.mem_iff.mp hrow)
  last e he := by
    obtain ⟨row, hrow, hsame⟩ := h.last e he
    exact ⟨row, hperm.mem_iff.mpr hrow, hsame⟩

theorem mem_entries {e : Nat × SeqId} :
    e ∈ entries ubatch ↔ e.1 < ubatch.nTokens ∧ 0 ≤ ubatch.pos e.1 ∧ e.2 ∈ ubatch.seqId e.1 := by
  unfold entries validTokens
  simp only [mem_flatMap, mem_filter, mem_range, List.mem_map, decide_eq_true_eq]
  constructor
  · rintro ⟨i, ⟨hlt, hpos⟩, seqId, hseq, rfl⟩
    exact ⟨hlt, hpos, hseq⟩
  · rintro ⟨hlt, hpos, hseq⟩
    exact ⟨e.1, ⟨hlt, hpos⟩, e.2, hseq, rfl⟩

theorem addFiller_cases {p : CompParams} {c c' : Commits} (h : addFiller p ubatch c = some c') :
    c'.persistRows = c.persistRows ∧ (c' = c ∨
      c.writeIdxs = [] ∧ ∃ e ∈ entries ubatch, c'.writeIdxs = [streamOf p e.2 * p.kvSize + p.kvSize - 1]) := by
  unfold addFiller at h
  split at h
  · next hcond =>
    obtain ⟨i, hi, h⟩ := bind_eq_some_iff.mp h
    obtain ⟨seqId, hseq, h⟩ := bind_eq_some_iff.mp h
    obtain ⟨off, hoff, h⟩ := bind_eq_some_iff.mp h
    obtain ⟨source, -, h⟩ := bind_eq_some_iff.mp h
    obtain ⟨-, rfl⟩ := streamOffset_eq_some.mp hoff
    obtain rfl := some.inj h
    have hvalid := mem_of_mem_head? hi
    unfold validTokens at hvalid
    rw [mem_filter, mem_range, decide_eq_true_eq] at hvalid
    refine ⟨rfl, .inr ⟨hcond.2.1, (i, seqId), ?_, rfl⟩⟩
    exact mem_entries.mpr ⟨hvalid.1, hvalid.2, mem_of_mem_head? hseq⟩
  · obtain rfl := some.inj h
    exact ⟨rfl, .inl rfl⟩

theorem planFacts {p : CompParams} {plan : CompPlan} (h : buildCompPlan p ubatch = some plan) :
    PlanFacts p ubatch plan := by
  unfold buildCompPlan at h
  split at h
  · cases h
  · next hsingle =>
    obtain ⟨c, hloop, h⟩ := bind_eq_some_iff.mp h
    obtain ⟨c', hfill, h⟩ := bind_eq_some_iff.mp h
    obtain rfl := some.inj h
    rw [foldlM_planToken] at hloop
    obtain ⟨hstreams, hpersist, hprev, hcur, hwrites⟩ := foldlM_collected hloop
    obtain ⟨hrows, hcases⟩ := addFiller_cases hfill
    have hpersisted := @persisted_foldl p ubatch (entries ubatch) [] [] ⟨.nil, nofun, nofun⟩
    refine ⟨hstreams, fun hone => by omega, ⟨_, ?_, rfl, rfl⟩, ?_⟩
    · rw [hrows, hpersist]
      exact hpersisted.perm (perm_insertionSort _ _)
    · rcases hcases with rfl | ⟨hnone, e, he, hrow⟩
      · refine .inl ⟨hwrites, ?_⟩
        rw [hprev, hcur]
        rfl
      · refine .inr ⟨?_, e, he, hrow⟩
        rw [hwrites] at hnone
        exact map_eq_nil_iff.mp hnone

/-! ## The pairs of a stream -/

section Stream

variable {p : CompParams} {h : History V} {x : CompInput V} {s : Nat} {e e' : Nat × SeqId}

theorem streamOf_lt {seqId : SeqId} (hs : HasStream p seqId) : streamOf p seqId < p.nStream := by
  unfold streamOf
  rcases hs with hone | hlt
  · rw [if_pos hone]
    exact p.nStream_pos
  · split
    · exact p.nStream_pos
    · exact hlt

theorem mem_streamEntries : e ∈ streamEntries p x.ubatch s ↔ e ∈ entries x.ubatch ∧ streamOf p e.2 = s := by
  unfold streamEntries
  rw [mem_filter, decide_eq_true_eq]

namespace Fits

variable (hfit : Fits p h x)
include hfit

theorem entry_range (hs : s < p.nStream) (he : e ∈ streamEntries p x.ubatch s) :
    h.count s ≤ entryPos x.ubatch e ∧ entryPos x.ubatch e < (h.push p x).count s := by
  have hmem := (hfit.consecutive s hs).mem_iff.mp (List.mem_map_of_mem he)
  obtain ⟨k, hk, hpos⟩ := List.mem_map.mp hmem
  rw [← hpos]
  exact ⟨Nat.le_add_right .., Nat.add_lt_add_left (mem_range.mp hk) _⟩

/-- Every position of the micro-batch has a token. -/
theorem entry_exists (hs : s < p.nStream) {pos : Nat} (hle : h.count s ≤ pos) (hlt : pos < (h.push p x).count s) :
    ∃ e ∈ streamEntries p x.ubatch s, entryPos x.ubatch e = pos := by
  refine List.mem_map.mp ((hfit.consecutive s hs).mem_iff.mpr (List.mem_map.mpr ⟨pos - h.count s, ?_, ?_⟩))
  · exact mem_range.mpr (Nat.sub_lt_left_of_lt_add hle hlt)
  · exact Nat.add_sub_cancel' hle

theorem positions_nodup (hs : s < p.nStream) : ((streamEntries p x.ubatch s).map (entryPos x.ubatch)).Nodup :=
  (hfit.consecutive s hs).nodup_iff.mpr (nodup_range.map fun _ _ => Nat.add_left_cancel)

/-- ... and no more than one. -/
theorem entry_unique (hs : s < p.nStream) (he : e ∈ streamEntries p x.ubatch s) (he' : e' ∈ streamEntries p x.ubatch s)
    (hpos : entryPos x.ubatch e = entryPos x.ubatch e') : e = e' :=
  inj_on_of_nodup_map (hfit.positions_nodup hs) he he' hpos

theorem entries_nodup (hstreams : ∀ e ∈ entries x.ubatch, HasStream p e.2) : (entries x.ubatch).Nodup := by
  rw [nodup_iff_count_le_one]
  intro e
  rcases Nat.eq_zero_or_pos ((entries x.ubatch).count e) with hzero | hpos
  · exact hzero ▸ Nat.zero_le 1
  · have hs := streamOf_lt (hstreams e (count_pos_iff.mp hpos))
    have hnodup : (streamEntries p x.ubatch (streamOf p e.2)).Nodup := .of_map _ (hfit.positions_nodup hs)
    have hcount : (streamEntries p x.ubatch (streamOf p e.2)).count e = (entries x.ubatch).count e := by
      unfold streamEntries
      exact count_filter (by simp)
    exact hcount ▸ nodup_iff_count_le_one.mp hnodup e

theorem value_entry (hs : s < p.nStream) (he : e ∈ streamEntries p x.ubatch s) :
    (h.push p x).value s (entryPos x.ubatch e) = some (x.rows e.1) := by
  unfold History.push
  dsimp only
  cases hfind : (streamEntries p x.ubatch s).find? fun e' => entryPos x.ubatch e' = entryPos x.ubatch e with
  | none => exact absurd (find?_eq_none.mp hfind e he) (by simp)
  | some e' =>
    have hsame := find?_some hfind
    rw [decide_eq_true_eq] at hsame
    rw [hfit.entry_unique hs (mem_of_find?_eq_some hfind) he hsame]

theorem value_old (hs : s < p.nStream) {pos : Nat} (hlt : pos < h.count s) : (h.push p x).value s pos = h.value s pos := by
  unfold History.push
  dsimp only
  cases hfind : (streamEntries p x.ubatch s).find? fun e' => entryPos x.ubatch e' = pos with
  | none => rfl
  | some e' =>
    have hsame := find?_some hfind
    rw [decide_eq_true_eq] at hsame
    have hge := (hfit.entry_range hs (mem_of_find?_eq_some hfind)).1
    omega

/-- The block of a processed position has a row. -/
theorem row_lt (hs : s < p.nStream) {b : Nat} (hb : (b + 1) * p.ratio ≤ (h.push p x).count s) : b < p.kvSize := by
  have hcells : (b + 1) * p.ratio ≤ p.ratio * p.kvSize :=
    Nat.le_trans hb (Nat.le_trans (hfit.capacity s hs) p.rows_le)
  rw [Nat.mul_comm] at hcells
  exact Nat.le_of_mul_le_mul_left hcells p.ratio_pos

/-- The pairs of a stream are of one sequence. -/
theorem seq_unique (hsingle : p.nStream ≤ 1 → x.ubatch.nSeqsUnq ≤ 1) (he : e ∈ entries x.ubatch)
    (he' : e' ∈ entries x.ubatch) (hstream : streamOf p e.2 = streamOf p e'.2) : e.2 = e'.2 := by
  unfold streamOf at hstream
  split at hstream
  · next hone =>
    have hlen : x.ubatch.seqIdUnq.length ≤ 1 := hfit.unique ▸ hsingle hone
    obtain ⟨hi, -, hseq⟩ := mem_entries.mp he
    obtain ⟨hi', -, hseq'⟩ := mem_entries.mp he'
    have hmem := hfit.seqs _ hi _ hseq
    have hmem' := hfit.seqs _ hi' _ hseq'
    generalize x.ubatch.seqIdUnq = unq at hlen hmem hmem'
    match unq, hlen with
    | [], _ => exact absurd hmem not_mem_nil
    | [_], _ => exact (mem_singleton.mp hmem).trans (mem_singleton.mp hmem').symm
  · exact Fin.ext hstream

end Fits

end Stream

/-! ## The sources -/

section Sources

variable {p : CompParams} {st : CompState V} {h : History V} {x : CompInput V} {plan : CompPlan}
  {ubatch : LlamaUbatch} {e : Nat × SeqId}

theorem ringRow_lt {s : Nat} (hs : s < p.nStream) (pos : Nat) :
    s * p.stateSize + pos % p.stateSize < stateRows p := by
  have hsize : 0 < p.stateSize := by
    have hratio := p.ratio_pos
    have hwindow := p.window_le
    split at hwindow <;> omega
  have hmod := Nat.mod_lt pos hsize
  have hmul : (s + 1) * p.stateSize ≤ p.nStream * p.stateSize := Nat.mul_le_mul_right _ hs
  unfold stateRows
  rw [Nat.succ_mul] at hmul
  rw [Nat.mul_comm p.stateSize]
  omega

theorem currTokenIdx_some {seqId : SeqId} {pos : Int} {i : Nat}
    (hi : currTokenIdx ubatch seqId pos = some i) :
    i < ubatch.nTokens ∧ seqId ∈ ubatch.seqId i ∧ ubatch.pos i = pos := by
  have hmem := mem_of_find?_eq_some hi
  have hsame := find?_some hi
  rw [mem_reverse, mem_range] at hmem
  rw [decide_eq_true_eq] at hsame
  exact ⟨hmem, hsame⟩

theorem currTokenIdx_none {seqId : SeqId} {pos : Int} (hi : currTokenIdx ubatch seqId pos = none)
    {i : Nat} (hlt : i < ubatch.nTokens) (hseq : seqId ∈ ubatch.seqId i) : ubatch.pos i ≠ pos := by
  have hnot := find?_eq_none.mp hi i (mem_reverse.mpr (mem_range.mpr hlt))
  rw [decide_eq_true_eq] at hnot
  exact fun hpos => hnot ⟨hseq, hpos⟩

/-- The source of a position: a token of the micro-batch, the row of an earlier token in the ring, or the
zero row in front of the first position. -/
theorem source_resolves (hgood : Good p st h) (hfit : Fits p h x) (hfacts : PlanFacts p x.ubatch plan)
    (he : e ∈ entries x.ubatch) {q : Int} (hlt : q < (h.push p x).count (streamOf p e.2))
    (hkept : h.count (streamOf p e.2) ≤ q + p.stateSize) :
    sourceRow p st.ring x ((stateSourceIdx p x.ubatch e.2 q).getD 0) =
      if q < 0 then none else (h.push p x).value (streamOf p e.2) q.toNat := by
  have hs := streamOf_lt (hfacts.streams e he)
  unfold stateSourceIdx
  split
  · -- the zero row
    rw [getD_some]
    unfold sourceRow
    rw [if_neg (by omega), if_neg (by omega)]
  · next hnonneg =>
    split
    · next i hi =>
      obtain ⟨hin, hseq, hpos⟩ := currTokenIdx_some hi
      have hentry : (i, e.2) ∈ streamEntries p x.ubatch (streamOf p e.2) :=
        mem_streamEntries.mpr ⟨mem_entries.mpr ⟨hin, hpos ▸ Int.not_lt.mp hnonneg, hseq⟩, rfl⟩
      have hvalue := hfit.value_entry hs hentry
      have hentryPos : entryPos x.ubatch (i, e.2) = q.toNat := congrArg Int.toNat hpos
      rw [hentryPos] at hvalue
      rw [hvalue, getD_some]
      unfold sourceRow
      rw [if_neg (by omega), if_pos (by omega), Nat.add_sub_cancel_left]
    · next hnone =>
      have hold : q.toNat < h.count (streamOf p e.2) := by
        refine Nat.not_le.mp fun hnew => ?_
        obtain ⟨e', he', hpos⟩ := hfit.entry_exists hs hnew (by omega)
        obtain ⟨hmem, hstream⟩ := mem_streamEntries.mp he'
        have hseq := hfit.seq_unique hfacts.single hmem he hstream
        obtain ⟨hin, hge, hseq'⟩ := mem_entries.mp hmem
        unfold entryPos at hpos
        exact currTokenIdx_none hnone hin (hseq ▸ hseq') (by omega)
      rw [streamOffset_eq_some.mpr ⟨hfacts.streams e he, rfl⟩, map_some, getD_some]
      unfold sourceRow
      rw [if_pos (ringRow_lt hs _), hgood.ring _ hs _ hold (by omega), hfit.value_old hs hold]

/-- The rows that are gathered for `ratio` positions. -/
theorem reads_resolve (hgood : Good p st h) (hfit : Fits p h x) (hfacts : PlanFacts p x.ubatch plan)
    (he : e ∈ entries x.ubatch) {start : Int}
    (hlt : start + p.ratio ≤ (h.push p x).count (streamOf p e.2))
    (hkept : h.count (streamOf p e.2) ≤ start + p.stateSize) :
    (reads p x.ubatch e start).map (sourceRow p st.ring x) = (List.range p.ratio).map fun j : Nat =>
      if start + j < 0 then none else (h.push p x).value (streamOf p e.2) (start + j).toNat := by
  unfold reads
  rw [List.map_map]
  refine map_congr_left fun j hj => ?_
  have hj := mem_range.mp hj
  exact source_resolves hgood hfit hfacts he (by omega) (by omega)

theorem reads_length {start : Int} : (reads p ubatch e start).length = p.ratio := by
  unfold reads
  rw [length_map, length_range]

/-! ## The windows -/

/-- The part of a list of equal parts that belongs to one of them. -/
theorem take_drop_flatMap {β : Type} {f : β → List Nat} {r : Nat} {bs : List β} (hlen : ∀ b ∈ bs, (f b).length = r)
    {k : Nat} {b : β} (hb : bs[k]? = some b) (rest : List Nat) :
    ((bs.flatMap f ++ rest).drop (k * r)).take r = f b := by
  induction bs generalizing k with
  | nil => cases hb
  | cons b' bs ih =>
    have hfirst := hlen b' mem_cons_self
    cases k with
    | zero =>
      obtain rfl := some.inj hb
      rw [Nat.zero_mul, drop_zero, flatMap_cons, append_assoc, ← hfirst, take_left]
    | succ k =>
      have hdrop : (k + 1) * r = (f b').length + k * r := by
        rw [Nat.succ_mul, hfirst, Nat.add_comm]
      rw [flatMap_cons, append_assoc, hdrop, drop_length_add_append]
      exact ih (fun b hb => hlen b (mem_cons_of_mem _ hb)) hb

theorem flatMap_length {β : Type} {f : β → List Nat} {r : Nat} {bs : List β} (hlen : ∀ b ∈ bs, (f b).length = r) :
    (bs.flatMap f).length = r * bs.length := by
  rw [length_flatMap, map_congr_left hlen, map_const', sum_replicate_nat, Nat.mul_comm]

theorem mem_blocks : e ∈ blocks p ubatch ↔ e ∈ entries ubatch ∧ AtEnd p ubatch e := by
  unfold blocks
  rw [mem_filter, decide_eq_true_eq]

/-- The position at the end of a block. -/
theorem atEnd_pos (hend : AtEnd p ubatch e) :
    entryPos ubatch e + 1 = (entryPos ubatch e / p.ratio + 1) * p.ratio := by
  obtain ⟨b, hb⟩ := Nat.dvd_of_mod_eq_zero hend
  have hpos := p.ratio_pos
  cases b with
  | zero => exact absurd hb (Nat.succ_ne_zero _)
  | succ b =>
    have hdiv : entryPos ubatch e / p.ratio = b := by
      refine Nat.div_eq_of_lt_le ?_ ?_ <;> rw [Nat.mul_comm]
      · rw [Nat.mul_succ] at hb
        omega
      · exact Nat.lt_of_lt_of_eq (Nat.lt_succ_self _) hb
    rw [hdiv, Nat.mul_comm]
    exact hb

/-- The sources of a completed block are its positions. -/
theorem cur_resolves (hgood : Good p st h) (hfit : Fits p h x) (hfacts : PlanFacts p x.ubatch plan)
    (he : e ∈ blocks p x.ubatch) :
    (curOf p x.ubatch e).map (sourceRow p st.ring x) = (List.range p.ratio).map fun j =>
      (h.push p x).value (streamOf p e.2) (entryPos x.ubatch e / p.ratio * p.ratio + j) := by
  obtain ⟨hmem, hend⟩ := mem_blocks.mp he
  have hpos := atEnd_pos hend
  have hrange := hfit.entry_range (streamOf_lt (hfacts.streams e hmem)) (mem_streamEntries.mpr ⟨hmem, rfl⟩)
  have hsize : p.ratio ≤ p.stateSize := by
    have hwindow := p.window_le
    split at hwindow <;> omega
  rw [Nat.succ_mul] at hpos
  unfold curOf
  rw [show entryPos x.ubatch e + 1 - p.ratio = entryPos x.ubatch e / p.ratio * p.ratio by omega,
    reads_resolve hgood hfit hfacts hmem (by omega) (by omega)]
  refine map_congr_left fun j _ => ?_
  rw [if_neg (by omega)]
  exact congrArg _ (by omega)

/-- With overlap, the sources of the preceding block are its positions. -/
theorem prev_resolves (hoverlap : p.overlap = true) (hgood : Good p st h) (hfit : Fits p h x)
    (hfacts : PlanFacts p x.ubatch plan) (he : e ∈ blocks p x.ubatch) :
    (prevOf p x.ubatch e).map (sourceRow p st.ring x) = (List.range p.ratio).map fun j =>
      if entryPos x.ubatch e / p.ratio = 0 then none
      else (h.push p x).value (streamOf p e.2) ((entryPos x.ubatch e / p.ratio - 1) * p.ratio + j) := by
  obtain ⟨hmem, hend⟩ := mem_blocks.mp he
  have hpos := atEnd_pos hend
  have hrange := hfit.entry_range (streamOf_lt (hfacts.streams e hmem)) (mem_streamEntries.mpr ⟨hmem, rfl⟩)
  have hsize := p.window_le
  rw [if_pos hoverlap] at hsize
  rw [Nat.succ_mul] at hpos
  unfold prevOf
  rw [if_pos hoverlap, show entryPos x.ubatch e + 1 - p.ratio = entryPos x.ubatch e / p.ratio * p.ratio by omega,
    reads_resolve hgood hfit hfacts hmem (by omega) (by omega)]
  refine map_congr_left fun j hj => ?_
  have hj := mem_range.mp hj
  cases entryPos x.ubatch e / p.ratio with
  | zero => rw [if_pos (by omega), if_pos rfl]
  | succ b =>
    rw [Nat.succ_mul, if_neg (by omega), if_neg (Nat.succ_ne_zero b), Nat.add_sub_cancel]
    exact congrArg _ (by omega)

theorem window_resolves (hgood : Good p st h) (hfit : Fits p h x) (hfacts : PlanFacts p x.ubatch plan)
    (hwrites : plan.stateWriteIdxs = (blocks p x.ubatch).map (entryRow p x.ubatch))
    (hreads : plan.stateReadIdxs =
      (blocks p x.ubatch).flatMap (prevOf p x.ubatch) ++ (blocks p x.ubatch).flatMap (curOf p x.ubatch))
    {k : Nat} (hk : (blocks p x.ubatch)[k]? = some e) : plan.window p (sourceRow p st.ring x) k =
      (h.push p x).window p (streamOf p e.2) (entryPos x.ubatch e / p.ratio) := by
  have he := mem_of_getElem? hk
  have hcurLen : ∀ b ∈ blocks p x.ubatch, (curOf p x.ubatch b).length = p.ratio := fun _ _ => reads_length
  have hcur := cur_resolves hgood hfit hfacts he
  unfold CompPlan.window History.window
  dsimp only
  rw [hreads, hwrites, length_map]
  cases hoverlap : p.overlap with
  | false =>
    have hnone : (blocks p x.ubatch).flatMap (prevOf p x.ubatch) = [] := by
      refine flatMap_eq_nil_iff.mpr fun e _ => ?_
      unfold prevOf
      rw [if_neg (by simp [hoverlap])]
    have hchunk := take_drop_flatMap hcurLen hk []
    rw [append_nil] at hchunk
    rw [if_neg Bool.false_ne_true, if_neg Bool.false_ne_true, hnone, nil_append, nil_append, hchunk]
    exact hcur
  | true =>
    have hprevLen : ∀ b ∈ blocks p x.ubatch, (prevOf p x.ubatch b).length = p.ratio := by
      intro b _
      unfold prevOf
      rw [if_pos hoverlap]
      exact reads_length
    have hcurChunk := take_drop_flatMap hcurLen hk []
    rw [append_nil] at hcurChunk
    rw [if_pos rfl, if_pos rfl, take_drop_flatMap hprevLen hk, ← flatMap_length hprevLen,
      drop_length_add_append, hcurChunk, hcur, prev_resolves hoverlap hgood hfit hfacts he]

end Sources

end LlamaCpp.Dsv4
