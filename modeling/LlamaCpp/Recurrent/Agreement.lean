import LlamaCpp.Recurrent.Rollback

/-!
# The indices and the rows agree in every run

A decode reads every cell with the index of its first sequence.  `SetFine` and `ExtraFine`
say that this is the index that goes with the state, so the graph starts every set from the
state of its first sequence and copies the states of the other cells of its range.  With the
other operations of the session this gives `reaches_writesStates`.
-/

namespace LlamaCpp.RecurrentMemory

open List Option

variable {α : Type} {c : RecurrentConfig} {zero : α} {σ : Session α} {m : RecurrentMemory}
  {ubatch : RecurrentUbatch} {f : Nat → Nat → α → α} {junk : Nat → α} {t i : Nat}

/-! ## The sets of a ubatch -/

theorem setOf_eq_some (hu : ubatch.WellFormed) (hr : AllInRange c ubatch) {s : Nat}
    (hs : s < ubatch.nSeqs) (ht : t ∈ setIds ubatch s) : Session.setOf ubatch t = some s := by
  cases hset : Session.setOf ubatch t with
  | none =>
    have hno := find?_eq_none.mp hset s (mem_range.mpr hs)
    exact absurd (decide_eq_true ht) hno
  | some u =>
    have hmem : t ∈ setIds ubatch u := of_decide_eq_true
      (find?_some (p := fun s => decide (t ∈ setIds ubatch s)) hset)
    have hlt : u < ubatch.nSeqs := mem_range.mp (mem_of_find?_eq_some hset)
    rcases eq_or_ne s u with rfl | hne
    · rfl
    · exact absurd hmem (Finset.disjoint_left.mp (setIds_disjoint hu hr hs hlt hne) ht)

theorem setOf_eq_none (h : ¬Mentions ubatch t) : Session.setOf ubatch t = none := by
  rw [Session.setOf, find?_eq_none]
  intro s hs ht
  exact h ⟨s, mem_range.mp hs, of_decide_eq_true ht⟩

theorem setTokens_length (s : Nat) (a : α) : (Session.setTokens ubatch f s a).length = ubatch.nSeqTokens := by
  simp [Session.setTokens]

/-- The states of a set, from the newest on. -/
theorem stateOf_drop_setTokens {s k : Nat} {a : α} {old : List (Int × α)}
    (hk : k < ubatch.nSeqTokens) :
    stateOf zero ((Session.setTokens ubatch f s a ++ old).drop k) = f s (ubatch.nSeqTokens - k) a := by
  have hlen : (Session.setTokens ubatch f s a).length = ubatch.nSeqTokens := setTokens_length s a
  have hlt : k < (Session.setTokens ubatch f s a ++ old).length := by
    rw [length_append, hlen]
    omega
  have hget : (Session.setTokens ubatch f s a ++ old)[k].2 = f s (ubatch.nSeqTokens - k) a := by
    rw [getElem_append_left (by omega)]
    simp only [Session.setTokens, getElem_reverse, getElem_map, getElem_range, length_map, length_range]
    congr 1
    omega
  rw [drop_eq_getElem_cons hlt]
  exact hget

/-! ## Placing a ubatch -/

theorem TailInv.tail_lt (h : TailInv c m) (htail : (m.cells t).tail = some i) :
    i < c.size := (h.lt ((h.tail_iff t i).mp htail)).2

/-- A cell that stays where it is keeps its source. -/
theorem findSlot_src (hinv : TailInv c σ.mem) (hhead : σ.mem.head < c.size) (hu : ubatch.WellFormed)
    (h : σ.mem.findSlot c ubatch = some (true, m)) {i₀ : Nat} (hment : ¬Mentions ubatch t)
    (hwas : (σ.mem.cells t).tail = some i₀) (htail : (m.cells t).tail = some i)
    (hout : i < m.head ∨ m.head + m.n ≤ i) : (m.cells i).src = (σ.mem.cells i₀).src := by
  obtain ⟨lo, hi, m₃, hplaced, hrun⟩ := findSlot_placed hu (findSlot_range hinv h) hinv hhead
  rw [hrun, map_eq_some_iff] at h
  obtain ⟨m', hfin, heq⟩ := h
  obtain rfl : m' = m := (Prod.mk.inj heq).2
  have hcells := finish_cells hfin
  obtain ⟨rfl, hn, -, -, -, hall⟩ := finish_eq_some hfin
  obtain ⟨j, hj, -, -, hsrc, -⟩ := hplaced.other t i₀ hment hwas
  obtain rfl := some.inj (hj.symm.trans ((hcells t).2.2.symm.trans htail))
  rw [← hsrc, hall]
  dsimp only
  rw [if_neg (by omega)]

structure Decoding (c : RecurrentConfig) (zero : α) (σ : Session α) (ubatch : RecurrentUbatch)
    (m : RecurrentMemory) : Prop where
  inv : SessionInv c zero σ
  wf : ubatch.WellFormed
  range : AllInRange c ubatch
  found : σ.mem.findSlot c ubatch = some (true, m)
  slot : SlotInv c m
  cons : Conserved c ubatch σ.mem m
  sets : ∀ s < ubatch.nSeqs, SetFine σ.mem ubatch s
  extra : ExtraFine c σ.mem ubatch
  sources : SrcOwn m

namespace Decoding

variable (d : Decoding c zero σ ubatch m) {i t : Nat}

include d

/-- Every cell with a sequence is fed from its own row. -/
theorem stateRow_eq (h : (σ.mem.cells t).tail = some i) : σ.mem.stateRow t = some i := by
  rw [stateRow, h, bind_some]
  exact d.inv.own i (Finset.ne_empty_of_mem ((d.inv.slot.tail_iff t i).mp h))

/-- A row for a cell without a state is clear. -/
theorem blank_clear {src0 : Option Nat} (h : Blank σ.mem m src0) :
    m.startState zero σ.row (src0.map (0 * c.size + ·)) = zero := by
  obtain ⟨hne, hsrc⟩ := h
  obtain ⟨r, rfl⟩ := ne_none_iff_exists'.mp hne
  rw [map_some, Nat.zero_mul, Nat.zero_add, startState]
  rcases hsrc with hz | ⟨e, h0, hsrc⟩
  · exact clearRow_zero hz.symm
  · obtain ⟨rfl, hclear⟩ := d.inv.blank e r h0 hsrc.symm
    exact clearRow_of_clear hclear

/-- A row in a plane of a cell is not the one that is cleared, if that cell is not. -/
theorem not_cleared {i₀ k : Nat} (hi : i₀ < c.size) (h : ∀ z, m.rsZ = some z → i₀ ≠ z) :
    m.clearRow zero σ.row (k * c.size + i₀) = σ.row (k * c.size + i₀) := by
  refine clearRow_of_ne fun z hz heq => ?_
  have hrange := d.cons.zeroRange z hz
  have hinside := d.cons.inside
  have hmod : z % c.size = z := Nat.mod_eq_of_lt (by omega)
  rw [← heq, plane_mod hi] at hmod
  exact h z hz (hmod.trans heq)

/-! ### The sequences after the placement -/

theorem tail_of_mem {s : Nat} (hs : s < ubatch.nSeqs) (ht : t ∈ setIds ubatch s) :
    (m.cells t).tail = some (s + m.head) := d.cons.setTail s hs t ht

/-- A sequence with another cell is not in the ubatch, and had a cell before. -/
theorem other_of_tail (htail : (m.cells t).tail = some i) (hi : i < m.head ∨ m.head + ubatch.nSeqs ≤ i) :
    ¬Mentions ubatch t ∧ ∃ i₀, (σ.mem.cells t).tail = some i₀ := by
  have hment : ¬Mentions ubatch t := by
    rintro ⟨s, hs, ht⟩
    have hset := some.inj ((d.tail_of_mem hs ht).symm.trans htail)
    omega
  refine ⟨hment, ne_none_iff_exists'.mp fun hnone => ?_⟩
  exact absurd ((d.cons.otherNone t hment hnone).symm.trans htail) (by simp)

/-- Outside the range a sequence has the cell that it had. -/
theorem stays (htail : (m.cells t).tail = some i) (hi : i < m.head ∨ m.head + m.n ≤ i) :
    ¬Mentions ubatch t ∧ (σ.mem.cells t).tail = some i := by
  have hroom := d.cons.room
  obtain ⟨hment, i₀, hwas⟩ := d.other_of_tail htail (by omega)
  obtain ⟨j, hj, -, -, hstay⟩ := d.cons.other t i₀ hment hwas
  obtain rfl := some.inj (hj.symm.trans htail)
  exact ⟨hment, (hstay hi).symm ▸ hwas⟩

/-- The sequences that lead a cell of the range have index 0 afterwards. -/
theorem leads_iff (htail : (m.cells t).tail = some i) :
    m.Leads m.n t ↔ m.head ≤ i ∧ i < m.head + m.n ∧ firstId (m.cells i).seqId = some t := by
  constructor
  · rintro ⟨j, hj, hfirst⟩
    have hi := some.inj (((d.slot.tail_iff t _).mpr (firstId_mem hfirst)).symm.trans htail)
    subst hi
    exact ⟨by omega, by omega, hfirst⟩
  · rintro ⟨hlo, hhi, hfirst⟩
    refine ⟨i - m.head, by omega, ?_⟩
    rwa [Nat.sub_add_cancel hlo]

/-! ### The states that the graph starts from -/

/-- A set starts from the state of its first sequence. -/
theorem start_set {s : Nat} (hs : s < ubatch.nSeqs) :
    m.startState zero σ.row ((m.cells (s + m.head)).src0.map (m.cellIdx (s + m.head) * c.size + ·)) =
      stateOf zero (σ.hist (ubatch.first s)) := by
  have hids : (m.cells (s + m.head)).seqId = setIds ubatch s := d.cons.setSeqId s hs
  have hidx : m.cellIdx (s + m.head) =
      if (σ.mem.cells (ubatch.first s)).tail = none then 0 else σ.mem.rsIdx (ubatch.first s) := by
    unfold cellIdx
    rw [hids]
    cases hfirst : firstId (setIds ubatch s) with
    | none =>
      rw [firstId_eq_none] at hfirst
      exact absurd (hfirst ▸ first_mem d.wf hs) (Finset.notMem_empty _)
    | some t =>
      dsimp only
      rw [d.cons.rsIdx, d.sets s hs t (firstId_mem hfirst), hfirst]
      cases (σ.mem.cells (ubatch.first s)).tail <;> simp
  rw [hidx]
  cases htail : (σ.mem.cells (ubatch.first s)).tail with
  | none =>
    rw [if_pos rfl, d.blank_clear (d.cons.setBlank s hs (by rw [stateRow, htail, bind_none])), d.inv.fresh _ htail]
    rfl
  | some i₀ =>
    have hrow := d.stateRow_eq htail
    have hlt : i₀ < c.size := d.inv.slot.toTailInv.tail_lt htail
    rw [if_neg (by simp), d.cons.setRow s hs i₀ hrow, map_some, startState]
    rw [d.not_cleared hlt fun z hz heq => d.cons.zeroSet z hz s hs (heq ▸ hrow)]
    exact d.inv.current _ i₀ htail

/-- Another cell of the range is fed from the state of its sequences. -/
theorem start_extra (htail : (m.cells t).tail = some i) (hlo : m.head + ubatch.nSeqs ≤ i)
    (hhi : i < m.head + m.n) :
    m.startState zero σ.row ((m.cells i).src0.map (m.cellIdx i * c.size + ·)) = stateOf zero (σ.hist t) := by
  obtain ⟨hment, i₀, hwas⟩ := d.other_of_tail htail (.inr hlo)
  have hrow := d.stateRow_eq hwas
  have hlt : i₀ < c.size := d.inv.slot.toTailInv.tail_lt hwas
  have hidx : m.cellIdx i = σ.mem.rsIdx t := by
    unfold cellIdx
    cases hfirst : firstId (m.cells i).seqId with
    | none =>
      rw [firstId_eq_none] at hfirst
      exact absurd (hfirst ▸ (d.slot.tail_iff t i).mp htail) (Finset.notMem_empty _)
    | some u =>
      have hu := (d.slot.tail_iff u i).mpr (firstId_mem hfirst)
      obtain ⟨humen, -⟩ := d.other_of_tail hu (.inr hlo)
      have hshare := (d.cons.share u t humen hment).mp (hu.trans htail.symm)
      rw [d.cons.rsIdx]
      exact d.inv.agree u t i₀ (hshare.trans hwas) hwas
  rw [hidx, d.cons.otherRow t i i₀ hment htail (by omega) hhi hrow, map_some, startState]
  rw [d.not_cleared hlt fun z hz heq => d.cons.zeroOther z hz t hment (heq ▸ hrow)]
  exact d.inv.current t i₀ hwas

theorem start_empty (h0 : (m.cells i).seqId = ∅) (hlo : m.head ≤ i) (hhi : i < m.head + m.n) :
    m.startState zero σ.row ((m.cells i).src0.map (m.cellIdx i * c.size + ·)) = zero := by
  have hidx : m.cellIdx i = 0 := by
    unfold cellIdx
    rw [firstId_eq_none.mpr h0]
  rw [hidx]
  exact d.blank_clear (d.cons.emptyBlank i h0 hlo hhi)

/-! ### The indices afterwards -/

theorem rsIdx_set {s : Nat} (hs : s < ubatch.nSeqs) (ht : t ∈ setIds ubatch s) : (m.resetLeads m.n).rsIdx t = 0 := by
  have hroom := d.cons.room
  have hleads := d.leads_iff (d.tail_of_mem hs ht)
  rw [d.cons.setSeqId s hs] at hleads
  change (if m.Leads m.n t then 0 else m.rsIdx t) = 0
  split
  · rfl
  · next hno =>
    rw [d.cons.rsIdx, d.sets s hs t ht, if_neg]
    rintro ⟨hfirst, -⟩
    exact hno (hleads.mpr ⟨by omega, by omega, hfirst⟩)

theorem rsIdx_extra (htail : (m.cells t).tail = some i) (hlo : m.head + ubatch.nSeqs ≤ i)
    (hhi : i < m.head + m.n) : (m.resetLeads m.n).rsIdx t = 0 := by
  change (if m.Leads m.n t then 0 else m.rsIdx t) = 0
  split
  · rfl
  · next hno =>
    rw [d.cons.rsIdx]
    refine d.extra m d.found i hlo hhi t ((d.slot.tail_iff t i).mp htail) fun hfirst => ?_
    exact hno ((d.leads_iff htail).mpr ⟨by omega, hhi, hfirst⟩)

theorem rsIdx_outside (htail : (m.cells t).tail = some i) (hout : i < m.head ∨ m.head + m.n ≤ i) :
    (m.resetLeads m.n).rsIdx t = σ.mem.rsIdx t := by
  change (if m.Leads m.n t then 0 else m.rsIdx t) = σ.mem.rsIdx t
  rw [if_neg, d.cons.rsIdx]
  rw [d.leads_iff htail]
  omega

end Decoding

/-! ## One operation -/

theorem SlotInv.resetLeads (h : SlotInv c m) (k : Nat) : SlotInv c (m.resetLeads k) :=
  { h with }

/-- The rows of a cell of a set, of another cell of the range, and of one outside. -/
theorem Decoding.cases (d : Decoding c zero σ ubatch m) (htail : (m.cells t).tail = some i) :
    (∃ s < ubatch.nSeqs, i = s + m.head ∧ t ∈ setIds ubatch s) ∨
      (m.head + ubatch.nSeqs ≤ i ∧ i < m.head + m.n ∧ ¬Mentions ubatch t) ∨
      ((i < m.head ∨ m.head + m.n ≤ i) ∧ ¬Mentions ubatch t) := by
  by_cases hment : Mentions ubatch t
  · obtain ⟨s, hs, ht⟩ := hment
    exact .inl ⟨s, hs, some.inj (htail.symm.trans (d.tail_of_mem hs ht)), ht⟩
  · have hout : i < m.head ∨ m.head + ubatch.nSeqs ≤ i := by
      by_contra hin
      obtain ⟨s, hs, rfl⟩ : ∃ s < ubatch.nSeqs, i = s + m.head :=
        ⟨i - m.head, by omega, by omega⟩
      have hmem := (d.slot.tail_iff t _).mp htail
      rw [d.cons.setSeqId s hs] at hmem
      exact hment ⟨s, hs, hmem⟩
    rcases Nat.lt_or_ge i (m.head + m.n) with hlt | hge
    · rcases hout with hlo | hhi
      · exact .inr (.inr ⟨.inl hlo, hment⟩)
      · exact .inr (.inl ⟨hhi, hlt, hment⟩)
    · exact .inr (.inr ⟨.inr hge, hment⟩)

theorem Decoding.keeps (d : Decoding c zero σ ubatch m) {data : Nat → Option Nat}
    (hdata : ∀ i < m.n, data i = (m.cells (i + m.head)).src0.map (m.cellIdx (i + m.head) * c.size + ·)) :
    SessionInv c zero
      { mem := m.resetLeads m.n
        row := (m.resetLeads m.n).runGraph c zero ubatch data f junk σ.row
        hist := σ.decodeHist zero ubatch f
        snaps := σ.decodeSnaps c ubatch (m.resetLeads m.n) } := by
  have hroom := d.cons.room
  have hinside := d.cons.inside
  have htok := d.wf.tokens_pos
  -- the rows
  have hset : ∀ s < ubatch.nSeqs, ∀ k ≤ c.nRsSeq, k < ubatch.nSeqTokens →
      m.runGraph c zero ubatch data f junk σ.row (k * c.size + (s + m.head)) =
        f s (ubatch.nSeqTokens - k) (stateOf zero (σ.hist (ubatch.first s))) := by
    intro s hs k hk hlt
    rw [runGraph_set hs (by omega) hk hlt, hdata s (by omega), d.start_set hs]
  have hextra : ∀ t i, (m.cells t).tail = some i → m.head + ubatch.nSeqs ≤ i → i < m.head + m.n →
      m.runGraph c zero ubatch data f junk σ.row i = stateOf zero (σ.hist t) := by
    intro t i htail hlo hhi
    rw [runGraph_extra (by omega) hlo hhi, hdata (i - m.head) (by omega),
      Nat.sub_add_cancel (by omega), d.start_extra htail hlo hhi]
  have hout : ∀ i k, i < c.size → (i < m.head ∨ m.head + m.n ≤ i) →
      m.runGraph c zero ubatch data f junk σ.row (k * c.size + i) = σ.row (k * c.size + i) := by
    intro i k hi hout
    rw [runGraph_outside hi hroom hout]
    refine d.not_cleared hi fun z hz heq => ?_
    have hrange := d.cons.zeroRange z hz
    omega
  -- the tokens
  have hhist : ∀ s < ubatch.nSeqs, ∀ t ∈ setIds ubatch s, σ.decodeHist zero ubatch f t =
      Session.setTokens ubatch f s (stateOf zero (σ.hist (ubatch.first s))) ++ σ.hist (ubatch.first s) := by
    intro s hs t ht
    unfold Session.decodeHist
    rw [setOf_eq_some d.wf d.range hs ht]
  have hrest : ∀ t, ¬Mentions ubatch t → σ.decodeHist zero ubatch f t = σ.hist t := by
    intro t hment
    unfold Session.decodeHist
    rw [setOf_eq_none hment]
  refine
    { slot := d.slot.resetLeads m.n
      own := fun i h0 => ?_
      blank := fun i r h0 hsrc => ?_
      agree := fun t u i ht hu => ?_
      current := fun t i ht => ?_
      planes := fun t i ht h0 k hk => ?_
      fresh := fun t ht => ?_
      srcOut := fun i hi => ?_ }
  · obtain ⟨t, ht⟩ := Finset.nonempty_iff_ne_empty.mpr h0
    have htail := (d.slot.tail_iff t i).mpr ht
    by_cases hin : m.head ≤ i ∧ i < m.head + m.n
    · exact d.cons.srcInside i hin.1 hin.2
    · obtain ⟨hment, hwas⟩ := d.stays htail (by omega)
      have hsrc := findSlot_src d.inv.slot.toTailInv d.inv.slot.head_lt d.wf d.found hment hwas htail
        (by omega)
      exact hsrc.trans (d.inv.own i (Finset.ne_empty_of_mem ((d.inv.slot.tail_iff t i).mp hwas)))
  · obtain rfl : r = i := by
      rcases d.sources i with hnone | hown
      · exact absurd (hnone.symm.trans hsrc) (by simp)
      · exact some.inj (hsrc.symm.trans hown)
    refine ⟨rfl, ?_⟩
    change m.runGraph c zero ubatch data f junk σ.row r = zero
    by_cases hin : m.head ≤ r ∧ r < m.head + m.n
    · have hlo : m.head + ubatch.nSeqs ≤ r := by
        by_contra hlt
        obtain ⟨s, hs, rfl⟩ : ∃ s < ubatch.nSeqs, r = s + m.head :=
          ⟨r - m.head, by omega, by omega⟩
        have hids := d.cons.setSeqId s hs
        exact Finset.notMem_empty _ (h0 ▸ hids ▸ first_mem d.wf hs)
      rw [runGraph_extra (by omega) hlo hin.2, hdata (r - m.head) (by omega),
        Nat.sub_add_cancel hin.1, d.start_empty h0 hin.1 hin.2]
    · obtain ⟨e, he, hesrc⟩ := d.cons.emptyOutside r r h0 (by omega) hsrc
      obtain ⟨rfl, hclear⟩ := d.inv.blank e r he hesrc
      have hlt : r < c.size := by
        by_contra hge
        exact absurd (hesrc.symm.trans (d.inv.srcOut r (Nat.le_of_not_lt hge))) (by simp)
      have hrow := hout r 0 hlt (by omega)
      rw [Nat.zero_mul, Nat.zero_add] at hrow
      rw [hrow, hclear]
  · change (m.resetLeads m.n).rsIdx t = (m.resetLeads m.n).rsIdx u
    rcases d.cases ht with ⟨s, hs, rfl, hmem⟩ | ⟨hlo, hhi, -⟩ | ⟨ho, -⟩
    · have hmemu := (d.slot.tail_iff u _).mp hu
      rw [d.cons.setSeqId s hs] at hmemu
      rw [d.rsIdx_set hs hmem, d.rsIdx_set hs hmemu]
    · rw [d.rsIdx_extra ht hlo hhi, d.rsIdx_extra hu hlo hhi]
    · rw [d.rsIdx_outside ht ho, d.rsIdx_outside hu ho]
      exact d.inv.agree t u i (d.stays ht ho).2 (d.stays hu ho).2
  · change m.runGraph c zero ubatch data f junk σ.row ((m.resetLeads m.n).rsIdx t * c.size + i) =
      stateOf zero (σ.decodeHist zero ubatch f t)
    rcases d.cases ht with ⟨s, hs, rfl, hmem⟩ | ⟨hlo, hhi, hment⟩ | ⟨ho, hment⟩
    · rw [d.rsIdx_set hs hmem, hset s hs 0 (Nat.zero_le _) htok, hhist s hs t hmem]
      exact (stateOf_drop_setTokens (k := 0) htok).symm
    · rw [d.rsIdx_extra ht hlo hhi, Nat.zero_mul, Nat.zero_add, hextra t i ht hlo hhi, hrest t hment]
    · rw [d.rsIdx_outside ht ho, hout i _ (d.slot.toTailInv.tail_lt ht) ho, hrest t hment]
      exact d.inv.current t i (d.stays ht ho).2
  · change m.runGraph c zero ubatch data f junk σ.row (k * c.size + i) =
      stateOf zero ((σ.decodeHist zero ubatch f t).drop k)
    change k < σ.decodeSnaps c ubatch m t at hk
    change (m.cells t).tail = some i at ht
    unfold Session.decodeSnaps at hk
    rcases d.cases ht with ⟨s, hs, rfl, hmem⟩ | ⟨hlo, hhi, hment⟩ | ⟨ho, hment⟩
    · rw [setOf_eq_some d.wf d.range hs hmem] at hk
      dsimp only at hk
      rw [hset s hs k (by omega) (by omega), hhist s hs t hmem]
      exact (stateOf_drop_setTokens (by omega)).symm
    · rw [setOf_eq_none hment] at hk
      rw [ht] at hk
      dsimp only at hk
      rw [if_pos ⟨by omega, hhi⟩] at hk
      obtain rfl : k = 0 := by omega
      rw [Nat.zero_mul, Nat.zero_add, hextra t i ht hlo hhi, hrest t hment, drop_zero]
    · rw [setOf_eq_none hment] at hk
      rw [ht] at hk
      dsimp only at hk
      rw [if_neg (by omega)] at hk
      change (m.resetLeads m.n).rsIdx t = 0 at h0
      rw [d.rsIdx_outside ht ho] at h0
      rw [hout i k (d.slot.toTailInv.tail_lt ht) ho, hrest t hment]
      exact d.inv.planes t i (d.stays ht ho).2 h0 k hk
  · have hment : ¬Mentions ubatch t := by
      rintro ⟨s, hs, hmem⟩
      exact absurd ((d.tail_of_mem hs hmem).symm.trans ht) (by simp)
    change σ.decodeHist zero ubatch f t = []
    rw [hrest t hment]
    refine d.inv.fresh t (eq_none_iff_forall_ne_some.mpr fun i₀ hwas => ?_)
    obtain ⟨i, hi, -⟩ := d.cons.other t i₀ hment hwas
    exact absurd (hi.symm.trans ht) (by simp)
  · have h0 := (d.slot.outside i hi).1
    rcases d.sources i with hnone | hown
    · exact hnone
    · obtain ⟨e, he, hesrc⟩ := d.cons.emptyOutside i i h0 (by omega) hown
      obtain ⟨rfl, -⟩ := d.inv.blank e i he hesrc
      exact absurd (hesrc.symm.trans (d.inv.srcOut i hi)) (by simp)

theorem SessionInv.decode (h : SessionInv c zero σ) (hmax : c.nSeqMax = c.size) (hrs : 0 < c.nRsSeq)
    (hok : (SessionOp.decode ubatch f junk).Ok) (hfine : (SessionOp.decode ubatch f junk).Fine c σ)
    {σ' : Session α} (hstep : σ.step c zero (.decode ubatch f junk) = some σ') :
    SessionInv c zero σ' := by
  obtain ⟨hu, hpos⟩ := hok
  obtain ⟨hsets, hextra⟩ := hfine
  obtain ⟨⟨found, m⟩, hfind, hstep⟩ := bind_eq_some_iff.mp hstep
  cases found with
  | false => cases hstep
  | true =>
    have hrange := findSlot_range h.slot.toTailInv hfind
    have hslot := h.slot.toTailInv.findSlot h.slot.head_lt hu hpos hfind
    obtain ⟨m', hfind', hcons⟩ := h.slot.toTailInv.conserved h.slot.head_lt h.srcOwn hu hrange
    obtain rfl : m' = m := by
      rw [hfind] at hfind'
      exact (Prod.mk.inj (some.inj hfind')).2.symm
    have d : Decoding c zero σ ubatch m' :=
      { inv := h
        wf := hu
        range := hrange
        found := hfind
        slot := ⟨hslot.1, hslot.2⟩
        cons := hcons
        sets := hsets
        extra := hextra
        sources := h.srcOwn.findSlot h.slot.toTailInv h.slot.head_lt hu hfind }
    -- a sequence is in one cell only
    obtain ⟨hmem, hdata⟩ := setInput_eq (c := c) (m := m') hrs
      (fun i _ t ht => hmax ▸ (d.slot.lt ht).1)
      (fun i _ j hj => Finset.disjoint_left.mpr fun t hi hj' => by
        have hti := (d.slot.tail_iff t _).mpr hi
        have htj := (d.slot.tail_iff t _).mpr hj'
        have := some.inj (hti.symm.trans htj)
        omega)
    simp only [Bool.not_true, Bool.false_eq_true, if_false] at hstep
    obtain rfl := some.inj hstep
    rw [hmem]
    exact d.keeps hdata

theorem SessionInv.step (h : SessionInv c zero σ) (hmax : c.nSeqMax = c.size) (hrs : 0 < c.nRsSeq)
    {op : SessionOp α} (hok : op.Ok) (hfine : op.Fine c σ) {σ' : Session α}
    (hstep : σ.step c zero op = some σ') : SessionInv c zero σ' := by
  cases op with
  | seqRm seqId p0 p1 =>
    obtain rfl := some.inj hstep
    exact h.seqRm hmax hfine
  | seqCp a b =>
    obtain rfl := some.inj hstep
    exact h.seqCp hfine
  | seqKeep seqId =>
    obtain rfl := some.inj hstep
    exact h.seqKeep seqId
  | decode ubatch f junk => exact h.decode hmax hrs hok hfine hstep

def Session.init (row : Nat → α) : Session α := ⟨{}, row, fun _ => [], fun _ => 0⟩

theorem init_sessionInv (row : Nat → α) : SessionInv c zero (Session.init row) where
  slot := init_slotInv
  own i h0 := absurd rfl h0
  blank i r _ hsrc := absurd hsrc (by simp [Session.init])
  agree t u i ht := absurd ht (by simp [Session.init])
  current t i ht := absurd ht (by simp [Session.init])
  planes t i ht := absurd ht (by simp [Session.init])
  fresh t _ := rfl
  srcOut i _ := rfl

/-! ## Saving -/

def rangeRows (ranges : List (Nat × Nat)) : List Nat :=
  ranges.flatMap fun r => List.range' r.1 (r.2 - r.1)

/-- What saving the whole memory comes to: the sequences of every cell agree on the index, the
state is written, and the row that is read for a cell holds the state of its sequences. -/
structure WritesStates (c : RecurrentConfig) (zero : α) (σ : Session α) : Prop where
  agree : ∀ i, ∀ t ∈ (σ.mem.cells i).seqId, ∀ u ∈ (σ.mem.cells i).seqId,
    σ.mem.rsIdx t = σ.mem.rsIdx u
  writes : ∀ L data, ∃ bytes, σ.mem.stateWrite c L data (-1) = some bytes
  rows : ∃ ranges, σ.mem.savedRanges c (-1) = some ranges ∧
    List.Forall₂ (fun i r => ∀ t ∈ (σ.mem.cells i).seqId, σ.row r = stateOf zero (σ.hist t))
      (σ.mem.savedCells c (-1)) (rangeRows ranges)

/-- The ranges grow by one row at a time. -/
theorem rangeRows_addRow {ranges : List (Nat × Nat)} (h : ∀ r ∈ ranges, r.1 ≤ r.2) (row : Nat) :
    rangeRows (addRow ranges row).reverse = rangeRows ranges.reverse ++ [row] ∧
      ∀ r ∈ addRow ranges row, r.1 ≤ r.2 := by
  cases ranges with
  | nil => simp [rangeRows, addRow]
  | cons r ranges =>
    have hr := h r mem_cons_self
    by_cases heq : r.2 = row
    · subst heq
      have hadd : addRow (r :: ranges) r.2 = (r.1, r.2 + 1) :: ranges := by simp [addRow]
      have hlen : r.2 + 1 - r.1 = r.2 - r.1 + 1 := by omega
      rw [hadd]
      refine ⟨?_, fun q hq => ?_⟩
      · have hlast : r.1 + (r.2 - r.1) = r.2 := by omega
        simp only [rangeRows, reverse_cons, flatMap_append, flatMap_cons,
          flatMap_nil, append_nil, hlen, range'_concat, Nat.one_mul, hlast,
          append_assoc]
      · rcases mem_cons.mp hq with rfl | hq
        · exact Nat.le_succ_of_le hr
        · exact h q (mem_cons_of_mem _ hq)
    · have hadd : addRow (r :: ranges) row = (row, row + 1) :: r :: ranges := by
        simp [addRow, heq]
      rw [hadd]
      refine ⟨by simp [rangeRows], fun q hq => ?_⟩
      rcases mem_cons.mp hq with rfl | hq
      · exact Nat.le_succ row
      · exact h q hq

theorem rangeRows_foldl (rows : List Nat) {ranges : List (Nat × Nat)} (h : ∀ r ∈ ranges, r.1 ≤ r.2) :
    rangeRows (rows.foldl addRow ranges).reverse = rangeRows ranges.reverse ++ rows := by
  induction rows generalizing ranges with
  | nil => rw [foldl_nil, append_nil]
  | cons row rows ih =>
    obtain ⟨hrow, hle⟩ := rangeRows_addRow h row
    rw [foldl_cons, ih hle, hrow, append_assoc, singleton_append]

/-- Equal indices are accepted. -/
theorem sharedRsIdx_eq {ids : List Nat} {idx : Nat} (hmax : ∀ t ∈ ids, t < c.nSeqMax)
    (h : ∀ t ∈ ids, m.rsIdx t = idx) : ∀ cur, (∀ k ∈ cur, k = idx) → (cur = none → ids ≠ []) →
      m.sharedRsIdx c ids cur = some idx := by
  induction ids with
  | nil =>
    intro cur hcur hne
    cases cur with
    | none => exact absurd rfl (hne rfl)
    | some k => rw [sharedRsIdx, hcur k rfl]; rfl
  | cons t ids ih =>
    intro cur hcur _
    have hih := ih (fun t ht => hmax t (mem_cons_of_mem _ ht))
      (fun t ht => h t (mem_cons_of_mem _ ht)) (some idx) (by simp) (by simp)
    have ht := hmax t mem_cons_self
    unfold sharedRsIdx
    rw [if_neg (by omega), h t mem_cons_self]
    cases cur with
    | none => exact hih
    | some k =>
      obtain rfl := hcur k rfl
      simpa using hih

/-- Only equal indices are accepted. -/
theorem sharedRsIdx_eq_some {ids : List Nat} {cur : Option Nat} {idx : Nat}
    (h : m.sharedRsIdx c ids cur = some idx) :
    (∀ t ∈ ids, m.rsIdx t = idx) ∧ ∀ k ∈ cur, k = idx := by
  induction ids generalizing cur with
  | nil =>
    refine ⟨by simp, fun k hk => ?_⟩
    obtain rfl := mem_def.mp hk
    exact some.inj h
  | cons t ids ih =>
    unfold sharedRsIdx at h
    split at h
    · cases h
    · cases cur with
      | none =>
        obtain ⟨hall, hcur⟩ := ih h
        exact ⟨forall_mem_cons.mpr ⟨hcur _ rfl, hall⟩, by simp⟩
      | some k =>
        dsimp only at h
        split at h
        · cases h
        · next heq =>
          obtain ⟨hall, hcur⟩ := ih h
          have hk := hcur k rfl
          exact ⟨forall_mem_cons.mpr ⟨(not_not.mp heq).symm.trans hk, hall⟩,
            fun j hj => (mem_some_iff.mp hj).symm.trans hk⟩

/-- `state_write` of the whole memory ends the process where two sequences of a cell have
different indices. -/
theorem stateWrite_eq_none (hrs : 0 < c.nRsSeq) {L : RecurrentLayout} {data : RecurrentData} {u : Nat}
    (hi : i < c.size) (ht : t ∈ (m.cells i).seqId) (hu : u ∈ (m.cells i).seqId)
    (h : m.rsIdx t ≠ m.rsIdx u) : m.stateWrite c L data (-1) = none := by
  have hrow : m.savedRow c (-1) i = none := by
    unfold savedRow rsIdxCur
    rw [if_neg (by omega), if_neg (by simp)]
    cases hidx : m.sharedRsIdx c ((m.cells i).seqId.sort (· ≤ ·)) none with
    | none => rfl
    | some idx =>
      have hall := (sharedRsIdx_eq_some hidx).1
      have h1 := hall t ((Finset.mem_sort (· ≤ ·)).mpr ht)
      have h2 := hall u ((Finset.mem_sort (· ≤ ·)).mpr hu)
      exact absurd (h1.trans h2.symm) h
  have hsaved : i ∈ m.savedCells c (-1) := by
    refine mem_filter.mpr ⟨mem_range.mpr hi, ?_⟩
    simp [isSaved, RecurrentCell.isEmpty, Finset.ne_empty_of_mem ht]
  have hrows : ∀ cells : List Nat, i ∈ cells → cells.mapM (m.savedRow c (-1)) = none := by
    intro cells hmem
    induction cells with
    | nil => exact absurd hmem not_mem_nil
    | cons j cells ih =>
      rw [mapM_cons]
      rcases mem_cons.mp hmem with rfl | hmem
      · rw [hrow]
        rfl
      · rw [ih hmem]
        cases m.savedRow c (-1) j <;> rfl
  unfold stateWrite savedRanges
  rw [hrows _ hsaved]
  rfl

theorem SessionInv.savedRow (h : SessionInv c zero σ) (hmax : c.nSeqMax = c.size) (hrs : 0 < c.nRsSeq)
    (hi : i ∈ σ.mem.savedCells c (-1)) : ∃ r, σ.mem.savedRow c (-1) i = some r ∧
      ∀ t ∈ (σ.mem.cells i).seqId, σ.row r = stateOf zero (σ.hist t) := by
  have hne : (σ.mem.cells i).seqId ≠ ∅ := by
    have hsaved := (mem_filter.mp hi).2
    simpa [isSaved, RecurrentCell.isEmpty, RecurrentCell.hasSeqId] using hsaved
  obtain ⟨u, hu⟩ := Finset.nonempty_iff_ne_empty.mpr hne
  have htail : ∀ t ∈ (σ.mem.cells i).seqId, (σ.mem.cells t).tail = some i := fun t ht =>
    (h.slot.tail_iff t i).mpr ht
  have hsort : (σ.mem.cells i).seqId.sort (· ≤ ·) ≠ [] := fun hnil =>
    absurd ((Finset.mem_sort (· ≤ ·)).mpr hu) (hnil ▸ not_mem_nil)
  have hidx : σ.mem.sharedRsIdx c ((σ.mem.cells i).seqId.sort (· ≤ ·)) none = some (σ.mem.rsIdx u) := sharedRsIdx_eq
    (fun t ht => hmax ▸ (h.slot.lt ((Finset.mem_sort (· ≤ ·)).mp ht)).1)
    (fun t ht => h.agree t u i (htail t ((Finset.mem_sort (· ≤ ·)).mp ht)) (htail u hu))
    none (by simp) (fun _ => hsort)
  refine ⟨σ.mem.rsIdx u * c.size + i, ?_, fun t ht => ?_⟩
  · unfold RecurrentMemory.savedRow rsIdxCur
    rw [if_neg (by omega), if_neg (by simp), hidx, h.own i hne]
    rfl
  · rw [h.agree u t i (htail u hu) (htail t ht)]
    exact h.current t i (htail t ht)

theorem SessionInv.writesStates (h : SessionInv c zero σ) (hmax : c.nSeqMax = c.size)
    (hrs : 0 < c.nRsSeq) : WritesStates c zero σ := by
  have hrows : ∀ cells : List Nat, (∀ i ∈ cells, i ∈ σ.mem.savedCells c (-1)) →
      ∃ rows, cells.mapM (σ.mem.savedRow c (-1)) = some rows ∧
        List.Forall₂ (fun i r => ∀ t ∈ (σ.mem.cells i).seqId, σ.row r = stateOf zero (σ.hist t))
          cells rows := by
    intro cells hcells
    induction cells with
    | nil => exact ⟨[], rfl, .nil⟩
    | cons i cells ih =>
      obtain ⟨r, hr, hstate⟩ := h.savedRow hmax hrs (hcells i mem_cons_self)
      obtain ⟨rows, hrun, hall⟩ := ih fun j hj => hcells j (mem_cons_of_mem _ hj)
      refine ⟨r :: rows, ?_, .cons hstate hall⟩
      rw [mapM_cons, hr, hrun]
      rfl
  obtain ⟨rows, hrun, hall⟩ := hrows _ fun _ hi => hi
  have hranges : σ.mem.savedRanges c (-1) = some (rows.foldl addRow []).reverse := by
    unfold savedRanges
    rw [hrun]
    rfl
  refine ⟨fun i t ht u hu => ?_, fun L data => ?_, _, hranges, ?_⟩
  · exact h.agree t u i ((h.slot.tail_iff t i).mpr ht) ((h.slot.tail_iff u i).mpr hu)
  · unfold stateWrite
    rw [hranges]
    exact ⟨_, rfl⟩
  · rw [rangeRows_foldl rows (by simp)]
    exact hall

/-- **Saving.**  In every run whose operations are `Fine`, the sequences of a cell have one
rollback index, `state_write` of the whole memory succeeds, and it reads every cell from the
row of its current state. -/
theorem reaches_writesStates (hmax : c.nSeqMax = c.size) (hrs : 0 < c.nRsSeq) {row : Nat → α}
    (h : Runs.Reaches (Session.step c zero) (fun σ op => op.Ok ∧ op.Fine c σ) (Session.init row) σ) :
    WritesStates c zero σ :=
  (h.inv (fun _ _ _ hs hop hstep => hs.step hmax hrs hop.1 hop.2 hstep)
    (init_sessionInv row)).writesStates hmax hrs

/-! ## A rollback, and a copy of what was rolled back -/

def twoCells : RecurrentConfig := ⟨2, 2, 1, by decide, by decide, by decide⟩

def twoTokens : RecurrentUbatch where
  bEqualSeqs := true
  nSeqTokens := 2
  nSeqs := 1
  pos := fun i => i
  seqId := fun _ => [0]

theorem twoTokens_ok (f : Nat → Nat → α → α) (junk : Nat → α) : (SessionOp.decode twoTokens f junk).Ok := by
  refine ⟨⟨rfl, by decide, by decide, fun s _ => by simp [RecurrentUbatch.seqSet, twoTokens],
    fun s _ => by simp [RecurrentUbatch.seqSet, twoTokens], fun s hs t ht hne => ?_⟩, fun s _ => ?_⟩
  · change s < 1 at hs
    change t < 1 at ht
    omega
  · exact Int.natCast_nonneg _

/-- Without rollbacks every decode is fine. -/
theorem decode_fine_of_zero (h : ∀ t, σ.mem.rsIdx t = 0) : (SessionOp.decode ubatch f junk).Fine c σ := by
  refine ⟨fun s _ t _ => ?_, fun _ _ _ _ _ t _ _ => h t⟩
  rw [h t, h (ubatch.first s)]
  split <;> rfl

def countTokens : SessionOp Nat := .decode twoTokens (fun _ j a => a + j) fun _ => 0

/-- Two tokens, of which the second is rolled back. -/
def rolledBack : List (SessionOp Nat) := [countTokens, .seqRm 0 1 (-1)]

theorem reaches_writesStates_rolledBack : ∃ σ,
    rolledBack.foldlM (Session.step twoCells 0) (Session.init fun _ => 0) = some σ ∧
      WritesStates twoCells 0 σ := by
  have hrun : (((Session.init fun _ => 0).step twoCells 0 countTokens).map fun σ =>
      decide ((σ.mem.cells 0).tail = some 0 ∧ (σ.mem.cells 0).seqId = {0} ∧
        (σ.mem.cells 0).pos = 1 ∧ σ.mem.rsIdx 0 = 0 ∧ 1 < σ.snaps 0 ∧
        ((σ.hist 0).takeWhile fun e => 1 ≤ e.1).length = 1)) = some true := by decide +kernel
  obtain ⟨σ, hσ, hval⟩ := map_eq_some_iff.mp hrun
  obtain ⟨htail, hids, hpos, hidx, hsnaps, htokens⟩ := of_decide_eq_true hval
  have hdecode : Runs.Reaches (Session.step twoCells 0) (fun σ op => op.Ok ∧ op.Fine twoCells σ)
      (Session.init fun _ => 0) σ :=
    .step .refl ⟨twoTokens_ok _ _, decode_fine_of_zero fun _ => rfl⟩ hσ
  refine ⟨_, ?_, reaches_writesStates (c := twoCells) rfl (by decide) (hdecode.step
    (a := .seqRm 0 1 (-1)) ⟨trivial, ?_⟩ rfl)⟩
  · rw [rolledBack, foldlM_cons, hσ]
    rfl
  · refine ⟨fun hneg => absurd hneg (by decide), fun _ i hi => ⟨fun _ hlo hhi hn => ?_, fun h0 => absurd h0 (by decide)⟩⟩
    obtain rfl := some.inj (htail.symm.trans hi)
    refine ⟨hids, hidx, ?_, ?_⟩
    · rw [hpos]
      exact hsnaps
    · rw [hpos]
      exact htokens

/-- A copy of the sequence that was rolled back. -/
def copiedOps : List (SessionOp Nat) := [countTokens, .seqRm 0 1 (-1), .seqCp 0 1]

/-- A copy does not get the rollback index, and `state_write` ends the process. -/
theorem copy_of_rolledBack : ∃ σ : Session Nat,
    Runs.Reaches (Session.step twoCells 0) (fun _ op => op.Ok) (Session.init fun _ => 0) σ ∧
      (∃ i, ∃ t ∈ (σ.mem.cells i).seqId, ∃ u ∈ (σ.mem.cells i).seqId,
        σ.mem.rsIdx t ≠ σ.mem.rsIdx u) ∧
      ∀ L data, σ.mem.stateWrite twoCells L data (-1) = none := by
  have hrun : (copiedOps.foldlM (Session.step twoCells 0) (Session.init fun _ => 0)).map (fun σ =>
      decide (0 ∈ (σ.mem.cells 0).seqId ∧ 1 ∈ (σ.mem.cells 0).seqId ∧
        σ.mem.rsIdx 0 ≠ σ.mem.rsIdx 1)) = some true := by decide +kernel
  obtain ⟨σ, hσ, hval⟩ := map_eq_some_iff.mp hrun
  obtain ⟨h0, h1, hidx⟩ := of_decide_eq_true hval
  refine ⟨σ, Runs.Reaches.refl.ofList (fun op hop _ => ?_) hσ, ⟨0, 0, h0, 1, h1, hidx⟩,
    fun L data => stateWrite_eq_none (by decide) (by decide) h0 h1 hidx⟩
  simp only [copiedOps, mem_cons, not_mem_nil, or_false] at hop
  rcases hop with rfl | rfl | rfl
  · exact twoTokens_ok _ _
  · trivial
  · trivial

end LlamaCpp.RecurrentMemory
