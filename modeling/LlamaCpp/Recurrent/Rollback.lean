import LlamaCpp.Recurrent.Graph

/-!
# Rolling back and saving

`n_rs_seq` older states of every cell are kept in further planes, and `rs_idx` names the
plane that a sequence is read from.  The index belongs to a sequence but the planes belong
to a cell, so sequences that share a cell have to agree.

A `Session` is the memory with the rows of a tensor.  Its fields `hist` and `snaps` are not
part of the program: `hist` lists the tokens of a sequence with the state after each of
them, and `snaps` counts those of these states that the planes hold.  `SessionInv` is kept
by every operation that is `Fine`, so that `state_write` finds one index for a cell and
reads the state of its sequences (`reaches_writesStates`).

The operations that break it: `seq_cp` does not copy the index; a rollback of a shared cell
moves all of its sequences but changes one index; a second rollback is counted from the
position of the first, and a long one reads a plane that the last ubatch did not write;
`s_copy` resets the index of the first sequence only; and a sequence that loses its cell
keeps its index.
-/

namespace LlamaCpp.RecurrentMemory

open Function Finset

variable {α : Type}

/-- The memory, the rows of a tensor, and what they stand for. -/
structure Session (α : Type) where
  mem : RecurrentMemory
  row : Nat → α
  /-- The tokens of a sequence with the state after each, the last token first. -/
  hist : Nat → List (Int × α)
  /-- The number of states that the planes hold. -/
  snaps : Nat → Nat

def stateOf (zero : α) (tokens : List (Int × α)) : α :=
  match tokens with
  | [] => zero
  | (_, a) :: _ => a

inductive SessionOp (α : Type) where
  | seqRm (seqId p0 p1 : Int)
  | seqCp (seqIdSrc seqIdDst : Int)
  | seqKeep (seqId : Int)
  | decode (ubatch : RecurrentUbatch) (f : Nat → Nat → α → α) (junk : Nat → α)

namespace Session

variable (c : RecurrentConfig) (zero : α) (σ : Session α)

/-- A sequence without a cell has no tokens. -/
def forget (m : RecurrentMemory) (hist : Nat → List (Int × α)) (t : Nat) : List (Int × α) :=
  if (m.cells t).tail = none then [] else hist t

/-- The tokens that are left of a sequence when a range is removed that reaches its last
token. -/
def removeTokens (seqId lo hi : Int) (t : Nat) : List (Int × α) :=
  if seqId < 0 ∨ seqId = t then
    match (σ.mem.cells t).tail with
    | none => σ.hist t
    | some i =>
      if lo ≤ (σ.mem.cells i).pos ∧ (σ.mem.cells i).pos < hi then
        (σ.hist t).dropWhile fun e => lo ≤ e.1
      else σ.hist t
  else σ.hist t

/-- The sequence `b` becomes a copy of `a`. -/
def copies (a b : Int) : Prop := a ≠ b ∧ (0 ≤ b ∧ b < c.size) ∧ 0 ≤ a ∧ a < c.size

instance (a b : Int) : Decidable (copies c a b) := inferInstanceAs (Decidable (_ ∧ _))

/-- The set that has sequence `t`. -/
def setOf (ubatch : RecurrentUbatch) (t : Nat) : Option Nat :=
  (List.range ubatch.nSeqs).find? fun s => t ∈ setIds ubatch s

/-- The tokens of set `s`, computed from the state `a`, the last one first. -/
def setTokens (ubatch : RecurrentUbatch) (f : Nat → Nat → α → α) (s : Nat) (a : α) :
    List (Int × α) :=
  ((List.range ubatch.nSeqTokens).map fun j =>
    (ubatch.pos (s * ubatch.nSeqTokens + j), f s (j + 1) a)).reverse

def decodeHist (ubatch : RecurrentUbatch) (f : Nat → Nat → α → α) (t : Nat) : List (Int × α) :=
  match setOf ubatch t with
  | none => σ.hist t
  | some s =>
    let old := σ.hist (ubatch.first s)
    setTokens ubatch f s (stateOf zero old) ++ old

/-- The states that the planes hold after a decode: those of the last tokens of a set, and
one of a cell that was copied. -/
def decodeSnaps (ubatch : RecurrentUbatch) (m : RecurrentMemory) (t : Nat) : Nat :=
  match setOf ubatch t with
  | none =>
    match (m.cells t).tail with
    | none => 0
    | some i => if m.head ≤ i ∧ i < m.head + m.n then 1 else σ.snaps t
  | some _ => min ubatch.nSeqTokens (c.nRsSeq + 1)

/-- One operation; `none` if it ends the process or finds no slot. -/
def step : SessionOp α → Option (Session α)
  | .seqRm seqId p0 p1 =>
    let (ok, m) := σ.mem.seqRm c seqId p0 p1
    some { σ with
      mem := m
      hist := forget m (if ok then σ.removeTokens seqId (rangeLo p0) (rangeHi p1) else σ.hist) }
  | .seqCp a b =>
    let m := σ.mem.seqCp c a b
    some { σ with
      mem := m
      hist := forget m
        (if copies c a b then Function.update σ.hist b.toNat (σ.hist a.toNat) else σ.hist)
      snaps := if copies c a b then Function.update σ.snaps b.toNat (σ.snaps a.toNat) else σ.snaps }
  | .seqKeep seqId =>
    let m := σ.mem.seqKeep c seqId
    some { σ with mem := m, hist := forget m σ.hist }
  | .decode ubatch f junk => do
      let (found, m) ← σ.mem.findSlot c ubatch
      if !found then none
      else
        let (data, m) := m.setInput c
        some
          { mem := m
            row := m.runGraph c zero ubatch data f junk σ.row
            hist := σ.decodeHist zero ubatch f
            snaps := σ.decodeSnaps c ubatch m }

end Session

/-- What a caller has to provide. -/
def SessionOp.Ok : SessionOp α → Prop
  | .decode ubatch _ _ => ubatch.WellFormed ∧ ∀ s < ubatch.nSeqs, 0 ≤ ubatch.lastPos s
  | _ => True

/-- The rollback indices of a set before its cell is read: the first sequence has the index
that goes with the state, and the others have 0. -/
def SetFine (m : RecurrentMemory) (ubatch : RecurrentUbatch) (s : Nat) : Prop :=
  ∀ t ∈ setIds ubatch s,
    m.rsIdx t =
      if firstId (setIds ubatch s) = some t ∧ (m.cells (ubatch.first s)).tail ≠ none then
        m.rsIdx (ubatch.first s)
      else 0

/-- The rollback indices of the other cells that the graph copies: where a cell is shared they
are 0. -/
def ExtraFine (c : RecurrentConfig) (m : RecurrentMemory) (ubatch : RecurrentUbatch) : Prop :=
  ∀ m', m.findSlot c ubatch = some (true, m') → ∀ i, m'.head + ubatch.nSeqs ≤ i →
    i < m'.head + m'.n → ∀ t ∈ (m'.cells i).seqId, firstId (m'.cells i).seqId ≠ some t →
    m.rsIdx t = 0

/-- A rollback is of a sequence with a cell of its own that has not been rolled back, and the
planes hold the state after the last token that is left. -/
def RollbackFine (σ : Session α) (t i : Nat) (lo : Int) : Prop :=
  let n := ((σ.mem.cells i).pos - (lo - 1)).toNat
  (σ.mem.cells i).seqId = {t} ∧ σ.mem.rsIdx t = 0 ∧ n < σ.snaps t ∧
    ((σ.hist t).takeWhile fun e => lo ≤ e.1).length = n

def RemoveFine (c : RecurrentConfig) (σ : Session α) (seqId lo hi : Int) : Prop :=
  ∀ i, (σ.mem.cells seqId.toNat).tail = some i →
    (0 < lo → lo ≤ (σ.mem.cells i).pos → (σ.mem.cells i).pos < hi →
      (σ.mem.cells i).pos - (lo - 1) ≤ c.nRsSeq → RollbackFine σ seqId.toNat i lo) ∧
    -- the index is reset although the sequence keeps its cell
    (lo = 0 → hi = llamaPosMax → llamaPosMax ≤ (σ.mem.cells i).pos →
      σ.mem.rsIdx seqId.toNat = 0)

/-- The condition under which an operation keeps the indices and the states together. -/
def SessionOp.Fine (c : RecurrentConfig) (σ : Session α) : SessionOp α → Prop
  | .seqRm seqId p0 p1 =>
    (seqId < 0 → rangeLo p0 = 0 → rangeHi p1 = llamaPosMax → ∀ i, (σ.mem.cells i).seqId = ∅) ∧
    (0 ≤ seqId → RemoveFine c σ seqId (rangeLo p0) (rangeHi p1))
  | .seqCp a b =>
    Session.copies c a b → (σ.mem.cells a.toNat).tail ≠ none →
      σ.mem.rsIdx b.toNat = σ.mem.rsIdx a.toNat
  | .seqKeep _ => True
  | .decode ubatch _ _ => (∀ s < ubatch.nSeqs, SetFine σ.mem ubatch s) ∧ ExtraFine c σ.mem ubatch

/-! ## The invariant -/

/-- What the rows hold. -/
structure SessionInv (c : RecurrentConfig) (zero : α) (σ : Session α) : Prop where
  slot : SlotInv c σ.mem
  own : ∀ i, (σ.mem.cells i).seqId ≠ ∅ → (σ.mem.cells i).src = some i
  /-- An empty cell that names a row names its own, and that is clear. -/
  blank : ∀ i r, (σ.mem.cells i).seqId = ∅ → (σ.mem.cells i).src = some r →
    r = i ∧ σ.row i = zero
  agree : ∀ t u i, (σ.mem.cells t).tail = some i → (σ.mem.cells u).tail = some i →
    σ.mem.rsIdx t = σ.mem.rsIdx u
  current : ∀ t i, (σ.mem.cells t).tail = some i →
    σ.row (σ.mem.rsIdx t * c.size + i) = stateOf zero (σ.hist t)
  planes : ∀ t i, (σ.mem.cells t).tail = some i → σ.mem.rsIdx t = 0 → ∀ k < σ.snaps t,
    σ.row (k * c.size + i) = stateOf zero ((σ.hist t).drop k)
  fresh : ∀ t, (σ.mem.cells t).tail = none → σ.hist t = []
  /-- The cells that the source does not have. -/
  srcOut : ∀ i, c.size ≤ i → (σ.mem.cells i).src = none

section Inv

variable {c : RecurrentConfig} {zero : α} {σ : Session α}

theorem SessionInv.srcOwn (h : SessionInv c zero σ) : SrcOwn σ.mem := by
  intro i
  by_cases h0 : (σ.mem.cells i).seqId = ∅
  · cases hs : (σ.mem.cells i).src with
    | none => exact .inl rfl
    | some r =>
      obtain ⟨rfl, -⟩ := h.blank i r h0 hs
      exact .inr rfl
  · exact .inr (h.own i h0)

/-- Operations that write no row: every sequence that has a cell afterwards goes on with the
index, the tokens and the planes that some sequence of this cell had. -/
theorem SessionInv.frame (h : SessionInv c zero σ) {m : RecurrentMemory}
    {hist : Nat → List (Int × α)} {snaps : Nat → Nat} (hinv : SlotInv c m)
    (hfrom : ∀ t i, (m.cells t).tail = some i → ∃ u, (σ.mem.cells u).tail = some i ∧
      m.rsIdx t = σ.mem.rsIdx u ∧ hist t = σ.hist u ∧ snaps t = σ.snaps u)
    (hsrc : ∀ i, (m.cells i).seqId ≠ ∅ → (m.cells i).src = (σ.mem.cells i).src)
    (hempty : ∀ i, (m.cells i).seqId = ∅ → (m.cells i).src = none ∨
      (σ.mem.cells i).seqId = ∅ ∧ (m.cells i).src = (σ.mem.cells i).src)
    (hnone : ∀ t, (m.cells t).tail = none → hist t = []) :
    SessionInv c zero { mem := m, row := σ.row, hist := hist, snaps := snaps } where
  slot := hinv
  own i h0 := by
    obtain ⟨t, ht⟩ := nonempty_iff_ne_empty.mpr h0
    obtain ⟨u, hu, -⟩ := hfrom t i ((hinv.tail_iff t i).mpr ht)
    exact (hsrc i h0).trans (h.own i (ne_empty_of_mem ((h.slot.tail_iff u i).mp hu)))
  blank i r h0 hs := by
    rcases hempty i h0 with hnone | ⟨hwas, heq⟩
    · exact absurd (hnone.symm.trans hs) (by simp)
    · exact h.blank i r hwas (heq.symm.trans hs)
  agree t u i ht hu := by
    obtain ⟨t', ht', hidx, -⟩ := hfrom t i ht
    obtain ⟨u', hu', hidx', -⟩ := hfrom u i hu
    exact hidx.trans ((h.agree t' u' i ht' hu').trans hidx'.symm)
  current t i ht := by
    obtain ⟨u, hu, hidx, hh, -⟩ := hfrom t i ht
    change σ.row (m.rsIdx t * c.size + i) = stateOf zero (hist t)
    rw [hidx, hh]
    exact h.current u i hu
  planes t i ht h0 k hk := by
    obtain ⟨u, hu, hidx, hh, hsnap⟩ := hfrom t i ht
    change σ.row (k * c.size + i) = stateOf zero ((hist t).drop k)
    rw [hh]
    exact h.planes u i hu (hidx.symm.trans h0) k (hsnap ▸ hk)
  fresh := hnone
  srcOut i hi := by
    rcases hempty i (hinv.outside i hi).1 with hnone | ⟨-, heq⟩
    · exact hnone
    · exact heq.trans (h.srcOut i hi)

/-! ## Removing, copying and keeping -/

section Cells

variable {m : RecurrentMemory} {seqId lo hi : Int}

theorem seqRmCells_tail (t : Nat) : ((m.seqRmCells c seqId lo hi).cells t).tail = (m.cells t).tail := by
  rw [seqRmCells_cells]
  split
  · unfold RecurrentCell.remove
    split
    · split <;> rfl
    · rfl
  · rfl

theorem seqRmCells_src_of_nonempty {i : Nat} (h : ((m.seqRmCells c seqId lo hi).cells i).seqId ≠ ∅) :
    ((m.seqRmCells c seqId lo hi).cells i).src = (m.cells i).src := by
  rw [seqRmCells_cells] at h ⊢
  split at h
  · next hi =>
    rw [if_pos hi]
    unfold RecurrentCell.remove at h ⊢
    split at h
    · split at h
      · exact absurd rfl h
      · next h1 h2 => rw [if_pos h1, if_neg h2]
    · next h1 => rw [if_neg h1]
  · next hi => rw [if_neg hi]

theorem seqRmCells_src_of_empty {i : Nat} (h : ((m.seqRmCells c seqId lo hi).cells i).seqId = ∅) :
    ((m.seqRmCells c seqId lo hi).cells i).src = none ∨
      (m.cells i).seqId = ∅ ∧ ((m.seqRmCells c seqId lo hi).cells i).src = (m.cells i).src := by
  rw [seqRmCells_cells] at h ⊢
  split at h
  · next hi =>
    rw [if_pos hi]
    unfold RecurrentCell.remove at h ⊢
    split at h
    · next h1 =>
      rw [if_pos h1]
      split at h
      · next h2 =>
        rw [if_pos h2]
        exact .inl rfl
      · next h2 => exact absurd h h2
    · next h1 =>
      rw [if_neg h1]
      exact .inr ⟨h, rfl⟩
  · next hi =>
    rw [if_neg hi]
    exact .inr ⟨h, rfl⟩

theorem keep_src (cell : RecurrentCell) (i : Nat) :
    (cell.keep seqId i).src = if cell.hasSeqId seqId then cell.src else none := by
  unfold RecurrentCell.keep
  extract_lets tail
  split <;> rfl

end Cells

theorem SessionInv.seqKeep (h : SessionInv c zero σ) (seqId : Int) :
    SessionInv c zero { σ with
      mem := σ.mem.seqKeep c seqId
      hist := Session.forget (σ.mem.seqKeep c seqId) σ.hist } := by
  have hcells : ∀ i, (σ.mem.seqKeep c seqId).cells i =
      if i < c.size then (σ.mem.cells i).keep seqId i else σ.mem.cells i := seqKeep_cells
  refine h.frame ⟨h.slot.toTailInv.seqKeep seqId,
    Nat.lt_of_le_of_lt seqKeep_head_le h.slot.head_lt⟩ (fun t i ht => ?_) (fun i hne => ?_)
    (fun i h0 => ?_) fun t ht => if_pos ht
  · have hwas : (σ.mem.cells t).tail = some i := by
      rw [hcells] at ht
      split at ht
      · rw [keep_tail] at ht
        split at ht
        · exact absurd ht (by simp)
        · exact ht
      · exact ht
    refine ⟨t, hwas, by rw [seqKeep_rsIdx], if_neg ?_, rfl⟩
    rw [ht]
    simp
  · rw [hcells] at hne ⊢
    split at hne
    · next hi =>
      rw [if_pos hi, keep_src]
      rw [keep_seqId] at hne
      split at hne
      · next hhas => rw [if_pos hhas]
      · exact absurd rfl hne
    · next hi => rw [if_neg hi]
  · rw [hcells] at h0 ⊢
    split at h0
    · next hi =>
      rw [if_pos hi, keep_src]
      rw [keep_seqId] at h0
      split at h0
      · exact absurd h0 (singleton_ne_empty _)
      · next hhas => exact .inl (if_neg hhas)
    · next hi =>
      rw [if_neg hi]
      exact .inr ⟨h0, rfl⟩

/-- A sequence that is not absent keeps its tokens. -/
theorem forget_eq_self (h : SessionInv c zero σ) : Session.forget σ.mem σ.hist = σ.hist := by
  funext t
  unfold Session.forget
  split
  · next ht => exact (h.fresh t ht).symm
  · rfl

/-- What `seq_cp` makes of the tails, the sources and the indices. -/
theorem seqCp_copies {m : RecurrentMemory} (h : TailInv c m) {a b : Int}
    (hcp : Session.copies c a b) :
    (∀ t, ((m.seqCp c a b).cells t).tail = if t = b.toNat then (m.cells a.toNat).tail else (m.cells t).tail) ∧
      (∀ i, ((m.seqCp c a b).cells i).seqId ≠ ∅ → ((m.seqCp c a b).cells i).src = (m.cells i).src) ∧
      (∀ i, ((m.seqCp c a b).cells i).seqId = ∅ → ((m.seqCp c a b).cells i).src = none ∨
        (m.cells i).seqId = ∅ ∧ ((m.seqCp c a b).cells i).src = (m.cells i).src) ∧
      (m.seqCp c a b).rsIdx = m.rsIdx := by
  obtain ⟨hne, hb, ha⟩ := hcp
  have hrel := h.releaseTail b.toNat
  have hab : a.toNat ≠ b.toNat := by omega
  have hempty : ∀ i, ((m.releaseTail b.toNat).cells i).seqId = ∅ →
      ((m.releaseTail b.toNat).cells i).src = none ∨ (m.cells i).seqId = ∅ ∧
        ((m.releaseTail b.toNat).cells i).src = (m.cells i).src := by
    intro i h0
    by_cases hwas : (m.cells i).seqId = ∅
    · exact .inr ⟨hwas, hrel.src i (.inr hwas)⟩
    · exact .inl (hrel.srcNone i h0 hwas)
  have htaila : ((m.releaseTail b.toNat).cells a.toNat).tail = (m.cells a.toNat).tail := by
    rw [hrel.tail, if_neg hab]
  unfold RecurrentMemory.seqCp
  rw [if_neg hne, if_pos ⟨hb, ha⟩]
  dsimp only
  rw [htaila]
  cases hta : (m.cells a.toNat).tail with
  | none =>
    refine ⟨fun t => ?_, fun i h0 => hrel.src i (.inl h0), hempty, hrel.rsIdx⟩
    rw [hrel.tail]
  | some k =>
    have hmem : a.toNat ∈ ((m.releaseTail b.toNat).cells k).seqId :=
      (hrel.inv.tail_iff _ k).mp (htaila.trans hta)
    refine ⟨fun t => ?_, fun i h0 => ?_, fun i h0 => ?_, hrel.rsIdx⟩
    · rw [setTail_cells]
      rcases eq_or_ne t b.toNat with rfl | hne
      · rw [if_pos rfl, if_pos rfl]
      · rw [if_neg hne, if_neg hne]
        rcases eq_or_ne t k with rfl | htk
        · simp [hrel.tail, hne]
        · simp [htk, hrel.tail, hne]
    · rw [setTail_src]
      rcases eq_or_ne i k with rfl | hik
      · simpa using hrel.src i (.inl (ne_empty_of_mem hmem))
      · have hne : ((m.releaseTail b.toNat).cells i).seqId ≠ ∅ := by
          simpa [hik] using h0
        simpa [hik] using hrel.src i (.inl hne)
    · rw [setTail_src]
      rcases eq_or_ne i k with rfl | hik
      · simp at h0
      · have h0 : ((m.releaseTail b.toNat).cells i).seqId = ∅ := by
          simpa [hik] using h0
        simpa [hik] using hempty i h0

theorem SessionInv.seqCp (h : SessionInv c zero σ) {a b : Int}
    (hfine : (SessionOp.seqCp a b : SessionOp α).Fine c σ) :
    SessionInv c zero { σ with
      mem := σ.mem.seqCp c a b
      hist := Session.forget (σ.mem.seqCp c a b) (if Session.copies c a b then
        Function.update σ.hist b.toNat (σ.hist a.toNat) else σ.hist)
      snaps := if Session.copies c a b then
        Function.update σ.snaps b.toNat (σ.snaps a.toNat) else σ.snaps } := by
  by_cases hcp : Session.copies c a b
  · obtain ⟨htail, hsrc, hempty, hidx⟩ := seqCp_copies h.slot.toTailInv hcp
    rw [if_pos hcp, if_pos hcp]
    refine h.frame ⟨h.slot.toTailInv.seqCp a b, by rw [seqCp_head]; exact h.slot.head_lt⟩
      (fun t i ht => ?_) hsrc hempty fun t ht => if_pos ht
    have hhist : ∀ hist, Session.forget (α := α) (σ.mem.seqCp c a b) hist t = hist t := fun hist =>
      if_neg (by rw [ht]; simp)
    rw [hidx, hhist]
    rw [htail] at ht
    rcases eq_or_ne t b.toNat with rfl | hne
    · rw [if_pos rfl] at ht
      refine ⟨a.toNat, ht, hfine hcp (by rw [ht]; simp), ?_, ?_⟩
      · rw [update_self]
      · rw [update_self]
    · rw [if_neg hne] at ht
      refine ⟨t, ht, rfl, ?_, ?_⟩
      · rw [update_of_ne hne]
      · rw [update_of_ne hne]
  · have hsame : σ.mem.seqCp c a b = σ.mem := by
      unfold RecurrentMemory.seqCp
      split
      · rfl
      · next hne =>
        split
        · next hrange => exact absurd ⟨hne, hrange⟩ hcp
        · rfl
    rw [if_neg hcp, if_neg hcp, hsame, forget_eq_self h]
    exact h

/-- A refused removal changes nothing. -/
theorem Refuses.resetWhole_eq {m : RecurrentMemory} {seqId lo hi : Int}
    (h : Refuses c m seqId lo hi) : resetWhole c m seqId lo hi = m := by
  unfold resetWhole
  split
  · next hwhole =>
    rcases h with hge | ⟨t, -, -, hpart, -⟩ | ⟨-, hpart⟩
    · have hsize := c.nSeqMax_le
      rw [if_pos (by omega), setRsIdx, if_pos (by omega)]
    · omega
    · exact absurd hwhole hpart
  · rfl

theorem resetWhole_rsIdx_of_ne {m : RecurrentMemory} {seqId lo hi : Int} {t : Nat}
    (hs : 0 ≤ seqId) (hne : t ≠ seqId.toNat) : (resetWhole c m seqId lo hi).rsIdx t = m.rsIdx t := by
  unfold resetWhole
  split
  · unfold setRsIdx
    split
    · rfl
    · exact update_of_ne hne _ _
  · rfl

theorem drop_length_takeWhile {β : Type} (p : β → Bool) (l : List β) :
    l.drop (l.takeWhile p).length = l.dropWhile p := by
  induction l with
  | nil => rfl
  | cons a l ih => cases hp : p a <;> simp [hp, ih]

/-- A rollback: one sequence goes back to an older state that the planes hold. -/
theorem SessionInv.rollback (h : SessionInv c zero σ) (hmax : c.nSeqMax = c.size) {t i : Nat}
    {lo hi : Int} (ht : t < c.size) (htail : (σ.mem.cells t).tail = some i)
    (hlo : lo ≤ (σ.mem.cells i).pos) (hhi : (σ.mem.cells i).pos < hi)
    (hn : (σ.mem.cells i).pos - (lo - 1) ≤ c.nRsSeq) (hfine : RollbackFine σ t i lo)
    (hslot : SlotInv c ((σ.mem.setRsIdx c t ((σ.mem.cells i).pos - (lo - 1)).toNat).modify i
      fun cell => { cell with pos := lo - 1 })) :
    SessionInv c zero { σ with
      mem := (σ.mem.setRsIdx c t ((σ.mem.cells i).pos - (lo - 1)).toNat).modify i fun cell =>
        { cell with pos := lo - 1 }
      hist := Session.forget ((σ.mem.setRsIdx c t ((σ.mem.cells i).pos - (lo - 1)).toNat).modify i
        fun cell => { cell with pos := lo - 1 }) (σ.removeTokens t lo hi) } := by
  obtain ⟨honly, hidx, hsnap, htokens⟩ := hfine
  generalize hnn : ((σ.mem.cells i).pos - (lo - 1)).toNat = n at hslot hsnap htokens ⊢
  have hnpos : 0 < n := by omega
  have hset : (σ.mem.setRsIdx c t n).rsIdx = Function.update σ.mem.rsIdx t n := by
    have hrange : ¬((t : Int) < 0 ∨ c.nSeqMax ≤ (t : Int)) := by omega
    have hclamp : ¬c.nRsSeq < n := by omega
    rw [setRsIdx, if_neg hrange, if_neg hclamp, Int.toNat_natCast]
  -- only the position of the cell changes
  have hcell : ∀ j, (((σ.mem.setRsIdx c t n).modify i fun cell =>
      { cell with pos := lo - 1 }).cells j).tail = (σ.mem.cells j).tail ∧
      (((σ.mem.setRsIdx c t n).modify i fun cell => { cell with pos := lo - 1 }).cells j).seqId =
        (σ.mem.cells j).seqId ∧
      (((σ.mem.setRsIdx c t n).modify i fun cell => { cell with pos := lo - 1 }).cells j).src =
        (σ.mem.cells j).src := by
    intro j
    rcases eq_or_ne j i with rfl | hne
    · simp
    · simp [hne]
  have hrs : ((σ.mem.setRsIdx c t n).modify i fun cell => { cell with pos := lo - 1 }).rsIdx =
      Function.update σ.mem.rsIdx t n := hset
  generalize (σ.mem.setRsIdx c t n).modify i (fun cell => { cell with pos := lo - 1 }) = m at *
  have halone : ∀ u j, u ≠ t → (σ.mem.cells u).tail = some j → j ≠ i := by
    rintro u j hne hu rfl
    have hmem := (h.slot.tail_iff u j).mp hu
    rw [honly, mem_singleton] at hmem
    exact hne hmem
  have hhist : ∀ u j, (σ.mem.cells u).tail = some j →
      Session.forget m (σ.removeTokens t lo hi) u = if u = t then (σ.hist t).drop n else σ.hist u := by
    intro u j hu
    have hforget : Session.forget m (σ.removeTokens t lo hi) u = σ.removeTokens t lo hi u :=
      if_neg (by rw [(hcell u).1, hu]; simp)
    rw [hforget]
    unfold Session.removeTokens
    rcases eq_or_ne u t with rfl | hne
    · rw [if_pos (.inr rfl), if_pos rfl, htail]
      dsimp only
      rw [if_pos ⟨hlo, hhi⟩, ← htokens]
      exact (drop_length_takeWhile _ _).symm
    · rw [if_neg (by omega), if_neg hne]
  exact
    { slot := hslot
      own := fun j h0 => by
        rw [(hcell j).2.2]
        exact h.own j ((hcell j).2.1 ▸ h0)
      blank := fun j r h0 hs => h.blank j r ((hcell j).2.1 ▸ h0) ((hcell j).2.2 ▸ hs)
      agree := by
        intro u v j hu hv
        rw [(hcell u).1] at hu
        rw [(hcell v).1] at hv
        rw [hrs]
        rcases eq_or_ne u t with rfl | hut
        · obtain rfl := Option.some.inj (htail.symm.trans hu)
          have hvt : v = u := by
            by_contra hvu
            exact halone v i hvu hv rfl
          rw [hvt]
        · have hvt : v ≠ t := by
            rintro rfl
            obtain rfl := Option.some.inj (htail.symm.trans hv)
            exact halone u i hut hu rfl
          rw [update_of_ne hut, update_of_ne hvt]
          exact h.agree u v j hu hv
      current := by
        intro u j hu
        rw [(hcell u).1] at hu
        change σ.row (m.rsIdx u * c.size + j) = stateOf zero (Session.forget m _ u)
        rw [hrs, hhist u j hu]
        rcases eq_or_ne u t with rfl | hut
        · obtain rfl := Option.some.inj (htail.symm.trans hu)
          rw [update_self, if_pos rfl]
          exact h.planes u i htail hidx n hsnap
        · rw [update_of_ne hut, if_neg hut]
          exact h.current u j hu
      planes := by
        intro u j hu h0 k hk
        rw [(hcell u).1] at hu
        rw [hrs] at h0
        change σ.row (k * c.size + j) = stateOf zero ((Session.forget m _ u).drop k)
        rw [hhist u j hu]
        rcases eq_or_ne u t with rfl | hut
        · rw [update_self] at h0
          omega
        · rw [update_of_ne hut] at h0
          rw [if_neg hut]
          exact h.planes u j hu h0 k hk
      fresh := fun u hu => if_pos hu
      srcOut := fun j hj => (hcell j).2.2.trans (h.srcOut j hj) }

theorem SessionInv.seqRm (h : SessionInv c zero σ) (hmax : c.nSeqMax = c.size) {seqId p0 p1 : Int}
    (hfine : (SessionOp.seqRm seqId p0 p1 : SessionOp α).Fine c σ) :
    SessionInv c zero { σ with
      mem := (σ.mem.seqRm c seqId p0 p1).2
      hist := Session.forget (σ.mem.seqRm c seqId p0 p1).2
        (if (σ.mem.seqRm c seqId p0 p1).1 then σ.removeTokens seqId (rangeLo p0) (rangeHi p1)
        else σ.hist) } := by
  obtain ⟨hall, hone⟩ := hfine
  have hslot : SlotInv c (σ.mem.seqRm c seqId p0 p1).2 := h.slot.seqRm fun hneg hlo hhi i hpos =>
    (h.slot.pos_iff i).mp hpos.1 (hall hneg hlo hhi i)
  have hcase := @seqRm_removal c σ.mem seqId p0 p1
  generalize σ.mem.seqRm c seqId p0 p1 = result at hcase hslot
  generalize rangeLo p0 = lo at hall hone hcase
  generalize rangeHi p1 = hi at hall hone hcase
  cases hcase with
  | refused hrefuses =>
    simp only [Bool.false_eq_true, if_false, hrefuses.resetWhole_eq, forget_eq_self h]
    exact h
  | sweep hlt hrange hneg =>
    refine h.frame hslot (fun t i ht => ?_) (fun i hne => ?_) (fun i h0 => ?_) fun t ht => if_pos ht
    · have hwas : (σ.mem.cells t).tail = some i := by
        rw [seqRmCells_tail, resetWhole_cells] at ht
        exact ht
      have hmem := (h.slot.tail_iff t i).mp hwas
      have hposi : 0 ≤ (σ.mem.cells i).pos := (h.slot.pos_iff i).mpr (ne_empty_of_mem hmem)
      have hnot : ¬(seqId < 0 ∧ lo = 0 ∧ hi = llamaPosMax) := fun ⟨hs, h1, h2⟩ => by
        rw [hall hs h1 h2 i] at hmem
        exact notMem_empty _ hmem
      refine ⟨t, hwas, ?_, ?_, rfl⟩
      · rw [seqRmCells_rsIdx]
        rcases Int.lt_or_le seqId 0 with hs | hs
        · rw [resetWhole, if_neg fun hwhole => hnot ⟨hs, hwhole⟩]
        · rcases eq_or_ne t seqId.toNat with rfl | hne
          · unfold resetWhole
            split
            · next hwhole =>
              have hout := hrange hs i hwas
              have hzero := (hone hs i hwas).2 hwhole.1 hwhole.2 (by omega)
              unfold setRsIdx
              split
              · rfl
              · dsimp only
                rw [update_self, hzero]
                split <;> omega
            · rfl
          · exact resetWhole_rsIdx_of_ne hs hne
      · simp only [if_true]
        rw [Session.forget, if_neg (by rw [ht]; simp)]
        unfold Session.removeTokens
        split
        · next hwho =>
          rw [hwas]
          dsimp only
          rw [if_neg]
          intro hin
          rcases Int.lt_or_le seqId 0 with hs | hs
          · rcases hneg hs with heq | hwhole
            · omega
            · exact hnot ⟨hs, hwhole⟩
          · obtain rfl : seqId.toNat = t := by omega
            exact hrange hs i hwas hin
        · rfl
    · rw [seqRmCells_src_of_nonempty hne, resetWhole_cells]
    · have hsrc := seqRmCells_src_of_empty h0
      rwa [resetWhole_cells] at hsrc
  | rollback i hs hlt htail hpart hlo hhi hn =>
    obtain ⟨t, rfl⟩ := Int.eq_ofNat_of_zero_le hs
    simp only [Int.toNat_natCast] at htail
    have hroll := (hone hs i htail).1 hpart hlo hhi hn
    rw [Int.toNat_natCast] at hroll
    exact h.rollback hmax (by omega) htail hlo hhi hn hroll hslot
  | drop i hs hlt htail hfrom hlo hhi =>
    refine h.frame hslot (fun t j ht => ?_) (fun j hne => ?_) (fun j h0 => ?_) fun t ht => if_pos ht
    · have hforget := ht
      rw [seqRmCells_tail, setTail_cells, resetWhole_cells] at ht
      have hne : t ≠ seqId.toNat := by
        rintro rfl
        rw [if_pos rfl] at ht
        exact absurd ht (by simp)
      rw [if_neg hne] at ht
      refine ⟨t, ht, ?_, ?_, rfl⟩
      · rw [seqRmCells_rsIdx]
        exact resetWhole_rsIdx_of_ne hs hne
      · simp only [if_true]
        rw [Session.forget, if_neg (by rw [hforget]; simp)]
        exact if_neg (by omega)
    · rw [seqRmCells_src_of_nonempty hne, setTail_src, resetWhole_cells]
    · have hsrc := seqRmCells_src_of_empty h0
      rw [setTail_src, setTail_seqId, resetWhole_cells] at hsrc
      exact hsrc

end Inv

end LlamaCpp.RecurrentMemory
