import LlamaCpp.Recurrent.Gather

/-!
# What `find_slot` leaves

`Placed` says where every sequence is once the sets of a ubatch have been entered, and
which source row its cell has; `findSlot_placed` splits a call of `find_slot` into that and
the staging of the source rows.
-/

namespace LlamaCpp

open List Option

/-- A ubatch of disjoint sets of the same number of tokens. -/
structure RecurrentUbatch.WellFormed (ubatch : RecurrentUbatch) : Prop where
  equal : ubatch.bEqualSeqs = true
  sets_pos : 0 < ubatch.nSeqs
  tokens_pos : 0 < ubatch.nSeqTokens
  nonempty : ∀ s < ubatch.nSeqs, ubatch.seqSet s ≠ []
  nodup : ∀ s < ubatch.nSeqs, (ubatch.seqSet s).Nodup
  disjoint : ∀ s < ubatch.nSeqs, ∀ t < ubatch.nSeqs, s ≠ t → ∀ id ∈ ubatch.seqSet s,
    id ∉ ubatch.seqSet t

namespace RecurrentMemory

variable {c : RecurrentConfig} {m m' : RecurrentMemory} {ubatch : RecurrentUbatch}
  {m₃ : RecurrentMemory}

/-! ## The sequences of a ubatch -/

def AllInRange (c : RecurrentConfig) (ubatch : RecurrentUbatch) : Prop :=
  ∀ s ∈ List.range ubatch.nSeqs, InRange c (ubatch.seqSet s)

def Mentions (ubatch : RecurrentUbatch) (t : Nat) : Prop :=
  ∃ s < ubatch.nSeqs, t ∈ setIds ubatch s

section Ids

variable (hu : ubatch.WellFormed) (hr : AllInRange c ubatch) {s t : Nat}

theorem mem_setIds : t ∈ setIds ubatch s ↔ ∃ id ∈ ubatch.seqSet s, id.toNat = t := by
  simp [setIds]

include hu in
theorem first_mem (hs : s < ubatch.nSeqs) : ubatch.first s ∈ setIds ubatch s := by
  cases hset : ubatch.seqSet s with
  | nil => exact absurd hset (hu.nonempty s hs)
  | cons id ids =>
    refine mem_setIds.mpr ⟨id, hset ▸ mem_cons_self, ?_⟩
    rw [RecurrentUbatch.first, hset]
    rfl

include hr in
theorem id_inj (hs : s < ubatch.nSeqs) (ht : t < ubatch.nSeqs) {a b : Int} (ha : a ∈ ubatch.seqSet s)
    (hb : b ∈ ubatch.seqSet t) (h : a.toNat = b.toNat) : a = b := by
  have h1 := hr s (mem_range.mpr hs) a ha
  have h2 := hr t (mem_range.mpr ht) b hb
  omega

include hu hr in
theorem setIds_disjoint (hs : s < ubatch.nSeqs) (ht : t < ubatch.nSeqs) (hne : s ≠ t) :
    Disjoint (setIds ubatch s) (setIds ubatch t) := by
  rw [Finset.disjoint_left]
  intro x hx hx'
  obtain ⟨a, ha, rfl⟩ := mem_setIds.mp hx
  obtain ⟨b, hb, heq⟩ := mem_setIds.mp hx'
  obtain rfl := id_inj hr ht hs hb ha heq
  exact hu.disjoint s hs t ht hne b ha hb

include hr in
theorem mentions_lt (h : Mentions ubatch t) : t < c.size := by
  obtain ⟨s, hs, ht⟩ := h
  obtain ⟨a, ha, rfl⟩ := mem_setIds.mp ht
  have := hr s (mem_range.mpr hs) a ha
  omega

include hu hr in
theorem first_inj (hs : s < ubatch.nSeqs) (ht : t < ubatch.nSeqs) (h : ubatch.first s = ubatch.first t) : s = t := by
  by_contra hne
  exact Finset.disjoint_left.mp (setIds_disjoint hu hr hs ht hne) (first_mem hu hs)
    (h ▸ first_mem hu ht)

include hu hr in
/-- The sequences that become shared are those that are not the first of their set. -/
theorem mem_sharedIds : t ∈ sharedIds ubatch (List.range ubatch.nSeqs) ↔
    ∃ s < ubatch.nSeqs, t ∈ setIds ubatch s ∧ t ≠ ubatch.first s := by
  simp only [sharedIds, mem_flatMap, mem_range, List.mem_map]
  refine exists_congr fun s => and_congr_right fun hs => ?_
  cases hset : ubatch.seqSet s with
  | nil => exact absurd hset (hu.nonempty s hs)
  | cons id ids =>
    have hnd := hu.nodup s hs
    rw [hset, nodup_cons] at hnd
    have hfirst : ubatch.first s = id.toNat := by
      rw [RecurrentUbatch.first, hset]
      rfl
    rw [hfirst, mem_setIds, hset, drop_one, tail_cons]
    constructor
    · rintro ⟨a, ha, rfl⟩
      refine ⟨⟨a, mem_cons_of_mem _ ha, rfl⟩, fun heq => ?_⟩
      have hab := id_inj hr hs hs (hset ▸ mem_cons_of_mem _ ha) (hset ▸ mem_cons_self) heq
      exact hnd.1 (hab ▸ ha)
    · rintro ⟨⟨a, ha, rfl⟩, hne⟩
      rcases mem_cons.mp ha with rfl | ha
      · exact absurd rfl hne
      · exact ⟨a, ha, rfl⟩

include hu hr in
theorem first_notMem_sharedIds (hs : s < ubatch.nSeqs) :
    ubatch.first s ∉ sharedIds ubatch (List.range ubatch.nSeqs) := by
  rw [mem_sharedIds hu hr]
  rintro ⟨t, ht, hmem, hne⟩
  by_cases hst : s = t
  · exact hne (hst ▸ rfl)
  · exact Finset.disjoint_left.mp (setIds_disjoint hu hr hs ht hst) (first_mem hu hs) hmem

include hu hr in
theorem mentions_iff : Mentions ubatch t ↔
    t ∈ firstsBefore ubatch ubatch.nSeqs ∨ t ∈ sharedIds ubatch (List.range ubatch.nSeqs) := by
  rw [mem_firstsBefore, mem_sharedIds hu hr]
  constructor
  · rintro ⟨s, hs, ht⟩
    by_cases h : t = ubatch.first s
    · exact .inl ⟨s, hs, h.symm⟩
    · exact .inr ⟨s, hs, ht, h⟩
  · rintro (⟨s, hs, rfl⟩ | ⟨s, hs, ht, -⟩)
    · exact ⟨s, hs, first_mem hu hs⟩
    · exact ⟨s, hs, ht⟩

end Ids

/-! ## Where the sequences are -/

/-- A row that an empty cell of `m` names, if the cells of `ids` are emptied. -/
def EmptySource (m : RecurrentMemory) (ids : List Nat) (r : Option Nat) : Prop :=
  ∃ e, (∀ t ∈ (m.cells e).seqId, t ∈ ids) ∧
    r = if (m.cells e).seqId = ∅ then (m.cells e).src else none

/-- Every source is the row of its own cell. -/
def SrcOwn (m : RecurrentMemory) : Prop := ∀ i, (m.cells i).src = none ∨ (m.cells i).src = some i

/-- What `m'` looks like when the sets of a ubatch have been entered into `m`: set `s` is in
cell `s + lo`, and cells up to `hi` have been moved. -/
structure Placed (c : RecurrentConfig) (ubatch : RecurrentUbatch) (lo hi : Nat)
    (m m' : RecurrentMemory) : Prop where
  room : lo + ubatch.nSeqs ≤ hi + 1
  hi_lt : hi < c.size
  tailsLt : TailsLt c m'
  /-- The sets. -/
  setPos : ∀ s < ubatch.nSeqs, (m'.cells (s + lo)).pos = ubatch.lastPos s
  setSeqId : ∀ s < ubatch.nSeqs, (m'.cells (s + lo)).seqId = setIds ubatch s
  setTail : ∀ s < ubatch.nSeqs, ∀ t ∈ setIds ubatch s, (m'.cells t).tail = some (s + lo)
  setSrc : ∀ s < ubatch.nSeqs, ∀ i₀, (m.cells (ubatch.first s)).tail = some i₀ →
    (m'.cells (s + lo)).src = (m.cells i₀).src
  setFresh : ∀ s < ubatch.nSeqs, (m.cells (ubatch.first s)).tail = none →
    EmptySource m (sharedIds ubatch (List.range ubatch.nSeqs)) (m'.cells (s + lo)).src
  /-- The other sequences. -/
  other : ∀ t i₀, ¬Mentions ubatch t → (m.cells t).tail = some i₀ → ∃ i,
    (m'.cells t).tail = some i ∧ (i < lo ∨ lo + ubatch.nSeqs ≤ i) ∧
    (m'.cells i).pos = (m.cells i₀).pos ∧ (m'.cells i).src = (m.cells i₀).src ∧
    (i < lo ∨ hi < i → i = i₀)
  otherNone : ∀ t, ¬Mentions ubatch t → (m.cells t).tail = none → (m'.cells t).tail = none
  share : ∀ t u, ¬Mentions ubatch t → ¬Mentions ubatch u →
    ((m'.cells t).tail = (m'.cells u).tail ↔ (m.cells t).tail = (m.cells u).tail)
  /-- The other cells. -/
  mem : ∀ i, i < lo ∨ lo + ubatch.nSeqs ≤ i → ∀ t,
    (m'.cells t).tail = some i ↔ t ∈ (m'.cells i).seqId
  posEmpty : ∀ i, i < lo ∨ lo + ubatch.nSeqs ≤ i → (m'.cells i).seqId = ∅ → (m'.cells i).pos < 0
  srcEmpty : ∀ i, i < lo ∨ lo + ubatch.nSeqs ≤ i → (m'.cells i).seqId = ∅ →
    EmptySource m (sharedIds ubatch (List.range ubatch.nSeqs)) (m'.cells i).src
  srcOutside : ∀ i, i < lo ∨ hi < i →
    (m'.cells i).src = (m.cells i).src ∨ (m'.cells i).src = none
  /-- A cell of the range without a source leaves a row that no cell names. -/
  zero : SrcOwn m → ∀ i, lo ≤ i → i ≤ hi → (m'.cells i).src = none → ∃ z, lo ≤ z ∧ z ≤ hi ∧
    ∀ j, (m'.cells j).src ≠ some z
  rsIdx : m'.rsIdx = m.rsIdx

section Compose

variable {m₀ m₁ m₂ m₃ : RecurrentMemory} {lo hi : Nat} {π : Equiv.Perm Nat}

/-- The sources of the cells that were empty before the loop. -/
theorem emptySource_of_dropped {ids : List Nat} (hdrop : Dropped c m ids m₀) {e : Nat}
    (h0 : (m₀.cells e).seqId = ∅) : EmptySource m ids (m₀.cells e).src := by
  refine ⟨e, fun t ht => ?_, hdrop.srcEmpty e h0⟩
  by_contra hno
  have hmem := (hdrop.seqId t e).mpr ⟨ht, hno⟩
  rw [h0] at hmem
  exact absurd hmem (Finset.notMem_empty t)

/-- A row without a cell that names it: the row of a cell that has no source. -/
theorem Claimed.unnamed {done : List Nat} (hcl : Claimed c m₀ done m₁) (hown : SrcOwn m₀)
    (hinv : TailInv c m₀) {j : Nat} (hj : (m₁.cells j).src = none) (k : Nat) :
    (m₁.cells k).src ≠ some j := by
  intro hk
  -- a cell whose source is the one it had before names its own row
  have hsame : (m₁.cells k).src = (m₀.cells k).src → False := by
    intro heq
    rw [heq] at hk
    rcases hown k with hnone | hsome
    · rw [hnone] at hk
      exact absurd hk (by simp)
    · obtain rfl := some.inj (hsome.symm.trans hk)
      rw [heq, hk] at hj
      exact absurd hj (by simp)
  by_cases htaken : Taken m₁ k
  · obtain ⟨t, ht⟩ := htaken
    cases htail : (m₀.cells t).tail with
    | none =>
      by_cases hd : t ∈ done
      · obtain ⟨i, hi, -, -, hsrc⟩ := hcl.fresh t hd htail
        obtain rfl := some.inj (hi.symm.trans ht)
        exact hsame hsrc
      · rw [hcl.other t hd, htail] at ht
        exact absurd ht (by simp)
    | some i₀ =>
      obtain ⟨i, hi, -, -, hsrc, -⟩ := hcl.kept t i₀ htail
      obtain rfl := some.inj (hi.symm.trans ht)
      rw [hsrc] at hk
      have hi₀ : i₀ = j := by
        rcases hown i₀ with hnone | hsome
        · rw [hnone] at hk
          exact absurd hk (by simp)
        · exact some.inj (hsome.symm.trans hk)
      subst hi₀
      have hne : (m₀.cells i₀).seqId ≠ ∅ :=
        Finset.ne_empty_of_mem ((hinv.tail_iff t i₀).mp htail)
      -- the cell of that row was not empty, so its source is still there
      by_cases htaken : Taken m₁ i₀
      · obtain ⟨u, hu⟩ := htaken
        cases hutail : (m₀.cells u).tail with
        | none =>
          by_cases hd : u ∈ done
          · obtain ⟨i', hi', -, h0, -⟩ := hcl.fresh u hd hutail
            obtain rfl := some.inj (hi'.symm.trans hu)
            exact hne h0
          · rw [hcl.other u hd, hutail] at hu
            exact absurd hu (by simp)
        | some i₁ =>
          obtain ⟨i', hi', -, -, hsrc', horigin⟩ := hcl.kept u i₁ hutail
          obtain rfl := some.inj (hi'.symm.trans hu)
          rcases horigin with rfl | h0
          · rw [hj, hk] at hsrc'
            exact absurd hsrc' (by simp)
          · exact hne h0
      · exact hne (hcl.free i₀ htaken).1
  · exact hsame (hcl.free k htaken).2.2

/-- The steps of `find_slot` up to the staging. -/
theorem placed_of_steps (hu : ubatch.WellFormed) (hr : AllInRange c ubatch)
    (hdrop : Dropped c m (sharedIds ubatch (List.range ubatch.nSeqs)) m₀)
    (hcl : Claimed c m₀ (firstsBefore ubatch ubatch.nSeqs) m₁)
    (hcov : Covers c m₁ (firstsBefore ubatch ubatch.nSeqs) lo hi) (hhi : hi < c.size)
    (hroom : lo + ubatch.nSeqs ≤ hi + 1) (hmoved : Moved lo hi m₁ m₂ π)
    (hplaced : ∀ s < ubatch.nSeqs, (m₂.cells (ubatch.first s)).tail = some (s + lo))
    (henter : EnteredAll ubatch lo ubatch.nSeqs m₂ m₃) : Placed c ubatch lo hi m m₃ := by
  have hfirst : ∀ s < ubatch.nSeqs, ubatch.first s ∈ firstsBefore ubatch ubatch.nSeqs :=
    fun s hs => mem_firstsBefore.mpr ⟨s, hs, rfl⟩
  have hlt2 : TailsLt c m₂ := hmoved.tailsLt hcl.tailsLt hhi
  -- a sequence of the ubatch that is not the first of its set has no cell before the sets are
  -- entered
  have hshared : ∀ t, t ∈ sharedIds ubatch (List.range ubatch.nSeqs) → (m₁.cells t).tail = none := by
    intro t ht
    have hnot : t ∉ firstsBefore ubatch ubatch.nSeqs := by
      rw [mem_firstsBefore]
      rintro ⟨s, hs, rfl⟩
      exact first_notMem_sharedIds hu hr hs ht
    rw [hcl.other t hnot, hdrop.tail, if_pos ht]
  -- and the others are where they were
  have hunment : ∀ t, ¬Mentions ubatch t → t ∉ firstsBefore ubatch ubatch.nSeqs ∧
      (m₁.cells t).tail = (m.cells t).tail ∧ (m₀.cells t).tail = (m.cells t).tail ∧
      (m₃.cells t).tail = (m.cells t).tail.map π := by
    intro t ht
    rw [mentions_iff hu hr, not_or] at ht
    have h0 : (m₀.cells t).tail = (m.cells t).tail := by rw [hdrop.tail, if_neg ht.2]
    have h1 : (m₁.cells t).tail = (m.cells t).tail := (hcl.other t ht.1).trans h0
    refine ⟨ht.1, h1, h0, ?_⟩
    rw [henter.tail t, hmoved.tail, h1]
    exact fun s hs hmem => (not_or.mpr ht) ((mentions_iff hu hr).mp ⟨s, hs, hmem⟩)
  -- who is in a gathered cell
  have hgathered : ∀ t i, (m₁.cells t).tail = some i → lo ≤ π i → π i < lo + ubatch.nSeqs →
      t ∈ firstsBefore ubatch ubatch.nSeqs := by
    intro t i hti h1 h2
    have hs : π i - lo < ubatch.nSeqs := by omega
    have htail := hplaced _ hs
    rw [hmoved.tail] at htail
    obtain ⟨j, hj, hπ⟩ := map_eq_some_iff.mp htail
    have hij : j = i := π.injective (by omega)
    subst hij
    obtain ⟨k, hk, honly⟩ := hcl.own _ (hfirst _ hs)
    obtain rfl := some.inj (hk.symm.trans hj)
    rw [honly t hti]
    exact hfirst _ hs
  have hnonempty : ∀ i, (m₀.cells i).seqId ≠ ∅ → (m₀.cells i).src = (m.cells i).src ∧
      (m₀.cells i).pos = (m.cells i).pos := fun i hi => ⟨hdrop.src i hi, hdrop.pos i hi⟩
  -- the source of a cell that is empty and not taken by a set
  have hemptySrc : ∀ j, (m₁.cells j).seqId = ∅ → (∀ s < ubatch.nSeqs, π j ≠ s + lo) → ¬Taken m₁ j := by
    rintro j h0 hnot ⟨t, ht⟩
    rcases hcl.tail_mem t j ht with hmem | ⟨hd, -⟩
    · rw [h0] at hmem
      exact absurd hmem (Finset.notMem_empty t)
    · obtain ⟨s, hs, rfl⟩ := mem_firstsBefore.mp hd
      have htail := hplaced s hs
      rw [hmoved.tail, ht, map_some] at htail
      exact hnot s hs (some.inj htail)
  refine
    { room := hroom, hi_lt := hhi, tailsLt := ?_, setPos := henter.setPos,
      setSeqId := henter.setSeqId, setTail := henter.setTail, setSrc := ?_, setFresh := ?_,
      other := ?_, otherNone := ?_, share := ?_, mem := ?_, posEmpty := ?_, srcEmpty := ?_,
      srcOutside := ?_, zero := ?_,
      rsIdx := henter.rsIdx.trans (hmoved.rsIdx.trans (hcl.rsIdx.trans hdrop.rsIdx)) }
  · intro t i hti
    by_cases ht : Mentions ubatch t
    · refine ⟨mentions_lt hr ht, ?_⟩
      obtain ⟨s, hs, hmem⟩ := ht
      rw [henter.setTail s hs t hmem] at hti
      have := some.inj hti
      omega
    · rw [henter.tail t fun s hs hmem => ht ⟨s, hs, hmem⟩] at hti
      exact hlt2 t i hti
  · intro s hs i₀ htail
    have h0 : (m₀.cells (ubatch.first s)).tail = some i₀ := by
      rw [hdrop.tail, if_neg (first_notMem_sharedIds hu hr hs), htail]
    obtain ⟨i, hi, -, -, hsrc, -⟩ := hcl.kept _ i₀ h0
    have hat := hplaced s hs
    rw [hmoved.tail, hi, map_some] at hat
    rw [henter.src, ← some.inj hat, hmoved.src, hsrc]
    exact (hnonempty i₀ (Finset.ne_empty_of_mem ((hdrop.inv.tail_iff _ i₀).mp h0))).1
  · intro s hs htail
    have h0 : (m₀.cells (ubatch.first s)).tail = none := by
      rw [hdrop.tail, if_neg (first_notMem_sharedIds hu hr hs), htail]
    obtain ⟨i, hi, -, hempty, hsrc⟩ := hcl.fresh _ (hfirst s hs) h0
    have hat := hplaced s hs
    rw [hmoved.tail, hi, map_some] at hat
    rw [henter.src, ← some.inj hat, hmoved.src, hsrc]
    exact emptySource_of_dropped hdrop hempty
  · intro t i₀ ht htail
    obtain ⟨hnot, h1, h0, h3⟩ := hunment t ht
    rw [htail] at h0 h1 h3
    obtain ⟨i, hi, -, hpos, hsrc, -⟩ := hcl.kept t i₀ h0
    obtain rfl := some.inj (hi.symm.trans h1)
    have hne := hnonempty i (Finset.ne_empty_of_mem ((hdrop.inv.tail_iff _ i).mp h0))
    have hout : π i < lo ∨ lo + ubatch.nSeqs ≤ π i := by
      by_contra hin
      exact hnot (hgathered t i h1 (by omega) (by omega))
    refine ⟨π i, h3, hout, ?_, ?_, fun hfar => ?_⟩
    · rw [henter.pos _ hout, hmoved.pos, hpos, hne.2]
    · rw [henter.src, hmoved.src, hsrc, hne.1]
    · have hfix := hmoved.fixes (π i) hfar
      exact π.injective hfix
  · intro t ht htail
    rw [(hunment t ht).2.2.2, htail]
    rfl
  · intro t u ht hu'
    rw [(hunment t ht).2.2.2, (hunment u hu').2.2.2]
    exact (map_injective π.injective).eq_iff
  · intro i hi t
    rw [henter.seqId i hi]
    obtain ⟨j, rfl⟩ : ∃ j, i = π j := ⟨π.symm i, (Equiv.apply_symm_apply ..).symm⟩
    rw [hmoved.seqId]
    by_cases ht : Mentions ubatch t
    · have hno : (m₃.cells t).tail ≠ some (π j) := by
        obtain ⟨s, hs, hmem⟩ := ht
        rw [henter.setTail s hs t hmem]
        intro heq
        have := some.inj heq
        omega
      have hno' : t ∉ (m₁.cells j).seqId := by
        intro hmem
        have htail := hcl.mem_tail t j hmem
        rcases (mentions_iff hu hr).mp ht with hd | hd
        · obtain ⟨s, hs, rfl⟩ := mem_firstsBefore.mp hd
          have hat := hplaced s hs
          rw [hmoved.tail, htail, map_some] at hat
          have := some.inj hat
          omega
        · rw [hshared t hd] at htail
          exact absurd htail (by simp)
      simp [hno, hno']
    · obtain ⟨hnot, h1, -, h3⟩ := hunment t ht
      rw [h3, ← h1, map_eq_some_iff]
      constructor
      · rintro ⟨k, hk, hkj⟩
        obtain rfl := π.injective hkj
        exact (hcl.tail_mem t k hk).resolve_right fun h => hnot h.1
      · exact fun hmem => ⟨j, hcl.mem_tail t j hmem, rfl⟩
  · intro i hi h0
    rw [henter.pos i hi]
    rw [henter.seqId i hi] at h0
    obtain ⟨j, rfl⟩ : ∃ j, i = π j := ⟨π.symm i, (Equiv.apply_symm_apply ..).symm⟩
    rw [hmoved.seqId] at h0
    have hfree := hemptySrc j h0 fun s hs heq => by omega
    rw [hmoved.pos, (hcl.free j hfree).2.1]
    by_contra hge
    exact (hdrop.inv.pos_iff j).mp (Int.not_lt.mp hge) (hcl.free j hfree).1
  · intro i hi h0
    rw [henter.seqId i hi] at h0
    rw [henter.src]
    obtain ⟨j, rfl⟩ : ∃ j, i = π j := ⟨π.symm i, (Equiv.apply_symm_apply ..).symm⟩
    rw [hmoved.seqId] at h0
    have hfree := hcl.free j (hemptySrc j h0 fun s hs heq => by omega)
    rw [hmoved.src, hfree.2.2]
    exact emptySource_of_dropped hdrop hfree.1
  · intro i hi
    rw [henter.src]
    have hsrc := hmoved.src i
    rw [hmoved.fixes i hi] at hsrc
    rw [hsrc]
    have hsame : (m₁.cells i).src = (m₀.cells i).src := by
      by_cases htaken : Taken m₁ i
      · obtain ⟨t, ht⟩ := htaken
        have hnot : t ∉ firstsBefore ubatch ubatch.nSeqs := fun hd => by
          have := hcov.within t hd i ht
          omega
        have h0 := (hcl.other t hnot).symm.trans ht
        obtain ⟨k, hk, -, -, hsrc, -⟩ := hcl.kept t i h0
        obtain rfl := some.inj (hk.symm.trans ht)
        exact hsrc
      · exact (hcl.free i htaken).2.2
    rw [hsame]
    by_cases h0 : (m₀.cells i).seqId = ∅
    · rw [hdrop.srcEmpty i h0]
      split
      · exact .inl rfl
      · exact .inr rfl
    · exact .inl (hdrop.src i h0)
  · intro hown i h1 h2 hnone
    have hown0 : SrcOwn m₀ := by
      intro k
      by_cases h0 : (m₀.cells k).seqId = ∅
      · rw [hdrop.srcEmpty k h0]
        split
        · exact hown k
        · exact .inl rfl
      · rw [hdrop.src k h0]
        exact hown k
    have hin : lo ≤ π.symm i ∧ π.symm i ≤ hi := by
      by_contra hout
      have hfix := hmoved.fixes (π.symm i) (by omega)
      rw [Equiv.apply_symm_apply] at hfix
      omega
    have hj : (m₁.cells (π.symm i)).src = none := by
      rw [← hmoved.src, Equiv.apply_symm_apply, ← henter.src]
      exact hnone
    refine ⟨π.symm i, hin.1, hin.2, fun k => ?_⟩
    have hk := hcl.unnamed hown0 hdrop.inv hj (π.symm k)
    rw [← hmoved.src, Equiv.apply_symm_apply] at hk
    rwa [henter.src]

end Compose

/-! ## A call of `find_slot` -/

theorem Placed.congr {r : RecurrentMemory} {lo hi : Nat} (h : Placed c ubatch lo hi r m₃)
    (hcells : r.cells = m.cells) (hidx : r.rsIdx = m.rsIdx) : Placed c ubatch lo hi m m₃ := by
  obtain ⟨head, used, n, rsZ, rsIdx, cells⟩ := r
  obtain ⟨head', used', n', rsZ', rsIdx', cells'⟩ := m
  subst hcells
  subst hidx
  exact { h with }

/-- The memory that is handed to the graph: the source rows are staged, and the range is
set. -/
def finish (c : RecurrentConfig) (lo hi : Nat) (m : RecurrentMemory) : Option RecurrentMemory := do
  let m ← (rangeIncl lo hi).foldlM stageCell { m with rsZ := m.zeroRow c lo hi }
  return { m with head := lo, n := hi + 1 - lo, used := (m.nonEmpty c).card }

/-- The first loop decides whether the ids are in range. -/
theorem findSlot_range (hinv : TailInv c m) (h : m.findSlot c ubatch = some (true, m')) : AllInRange c ubatch := by
  unfold findSlot at h
  dsimp only at h
  have hreset : ∃ r, (if (m.used + 2 * ubatch.nSeqs) % 2 ^ 32 < m.head then { m with head := 0 } else m) =
      r ∧ TailInv c r := by
    refine ⟨_, rfl, ?_⟩
    split
    · exact hinv.congr_cells rfl rfl
    · exact hinv
  obtain ⟨r, hr, hrinv⟩ := hreset
  rw [hr] at h
  split at h
  · exact absurd h (by simp)
  · split at h
    · simp at h
    · rename_i hcheck
      exact (checkSets_all (Dropped.nil hrinv)).1.mp (congrArg Prod.fst hcheck)

/-- With ids in range `find_slot` gets as far as the staging. -/
theorem findSlot_placed (hu : ubatch.WellFormed) (hr : AllInRange c ubatch) (hinv : TailInv c m)
    (hhead : m.head < c.size) :
    ∃ lo hi m₃, Placed c ubatch lo hi m m₃ ∧ m.findSlot c ubatch = (finish c lo hi m₃).map fun m' => (true, m') := by
  have hreset : ∃ r, (if (m.used + 2 * ubatch.nSeqs) % 2 ^ 32 < m.head then { m with head := 0 } else m) =
      r ∧ TailInv c r ∧ r.head < c.size ∧ r.cells = m.cells ∧ r.rsIdx = m.rsIdx := by
    refine ⟨_, rfl, ?_⟩
    split
    · exact ⟨hinv.congr_cells rfl rfl, c.size_pos, rfl, rfl⟩
    · exact ⟨hinv, hhead, rfl, rfl⟩
  obtain ⟨r, hreset, hrinv, hrhead, hcells, hidx⟩ := hreset
  obtain ⟨hcheck, hdrop⟩ :=
    @checkSets_all c r r ubatch [] (List.range ubatch.nSeqs) (Dropped.nil hrinv)
  rcases hrun : checkSets c ubatch (List.range ubatch.nSeqs) r with ⟨ok, m₀⟩
  rw [hrun] at hcheck hdrop
  obtain rfl : ok = true := hcheck.mpr hr
  have hdrop := hdrop hr
  rw [nil_append] at hdrop
  have hfirstlt : ∀ s < ubatch.nSeqs, ubatch.first s < c.size := fun s hs =>
    mentions_lt hr ⟨s, hs, first_mem hu hs⟩
  have hinj : ∀ s < ubatch.nSeqs, ∀ t < ubatch.nSeqs, ubatch.first s = ubatch.first t → s = t :=
    fun s hs t ht => first_inj hu hr hs ht
  obtain ⟨σ, hclaim, hcl, hcov⟩ :=
    claimCells_ok hdrop.inv (hdrop.head ▸ hrhead) hfirstlt hinj
  have hone : firstsBefore ubatch ubatch.nSeqs ≠ [] :=
    ne_nil_of_mem (mem_firstsBefore.mpr ⟨0, hu.sets_pos, rfl⟩)
  have hown : ∀ s < ubatch.nSeqs, ∃ i, (σ.mem.cells (ubatch.first s)).tail = some i ∧
      (∀ t, (σ.mem.cells t).tail = some i → t = ubatch.first s) ∧ σ.min ≤ i ∧ i ≤ σ.max := by
    intro s hs
    have hd : ubatch.first s ∈ firstsBefore ubatch ubatch.nSeqs := mem_firstsBefore.mpr ⟨s, hs, rfl⟩
    obtain ⟨i, hi, honly⟩ := hcl.own _ hd
    exact ⟨i, hi, honly, hcov.within _ hd i hi⟩
  have hhi : σ.max < c.size := by
    obtain ⟨t, -, ht⟩ := hcov.max_mem hone
    exact (hcl.tailsLt t _ ht).2
  -- the claimed cells are distinct and lie in the range
  have hroom : σ.min + ubatch.nSeqs ≤ σ.max + 1 := by
    choose! f hf using hown
    have hmaps : ∀ s ∈ Finset.range ubatch.nSeqs, f s ∈ Finset.Icc σ.min σ.max := fun s hs =>
      Finset.mem_Icc.mpr (hf s (Finset.mem_range.mp hs)).2.2
    have hinjf : Set.InjOn f (Finset.range ubatch.nSeqs) := by
      intro s hs t ht hst
      have h1 := hf s (Finset.mem_range.mp hs)
      have h2 := hf t (Finset.mem_range.mp ht)
      exact (hinj t (Finset.mem_range.mp ht) s (Finset.mem_range.mp hs)
        (h1.2.1 _ (hst ▸ h2.1))).symm
    have hcard := Finset.card_le_card_of_injOn f hmaps hinjf
    rw [Finset.card_range, Nat.card_Icc] at hcard
    have := hu.sets_pos
    omega
  obtain ⟨m₂, π, hgather, hmoved, hplaced⟩ := gatherCells_ok hcl.tailsLt hhi hroom hown hinj
  have henter := @enterSets_spec m₂ ubatch σ.min fun s hs t ht hne => setIds_disjoint hu hr hs ht hne
  refine ⟨σ.min, σ.max, _,
    (placed_of_steps hu hr hdrop hcl hcov hhi hroom hmoved hplaced henter).congr hcells hidx, ?_⟩
  have hn : ubatch.nSeqs ≤ σ.max + 1 - σ.min := by omega
  unfold findSlot finish
  simp only [hreset, hu.equal, hrun, hclaim, hgather, Bool.not_true, Bool.false_eq_true, if_false,
    bind_eq_bind, bind_some, Option.pure_def, hn, decide_true]
  cases (rangeIncl σ.min σ.max).foldlM stageCell
    { (List.range ubatch.nSeqs).foldl (enterSet ubatch σ.min) m₂ with
      rsZ := ((List.range ubatch.nSeqs).foldl (enterSet ubatch σ.min) m₂).zeroRow c σ.min σ.max } <;>
    rfl

/-- The cells that `finish` hands over. -/
theorem finish_eq_some {lo hi : Nat} (h : finish c lo hi m₃ = some m') :
    m'.head = lo ∧ m'.n = hi + 1 - lo ∧ m'.used = (m'.nonEmpty c).card ∧ m'.rsIdx = m₃.rsIdx ∧
      m'.rsZ = m₃.zeroRow c lo hi ∧
      m'.cells = fun i => if lo ≤ i ∧ i < lo + (hi + 1 - lo) then
        stagedCell (m₃.zeroRow c lo hi) i (m₃.cells i) else m₃.cells i := by
  unfold finish at h
  rcases @stageCells_result { m₃ with rsZ := m₃.zeroRow c lo hi } lo (hi + 1 - lo) with hnone | hsome
  · rw [rangeIncl, hnone] at h
    exact absurd h (by simp)
  · rw [rangeIncl, hsome] at h
    obtain rfl := some.inj h
    exact ⟨rfl, rfl, rfl, rfl, rfl, rfl⟩

theorem finish_cells {lo hi : Nat} (h : finish c lo hi m₃ = some m') (i : Nat) :
    (m'.cells i).pos = (m₃.cells i).pos ∧ (m'.cells i).seqId = (m₃.cells i).seqId ∧
      (m'.cells i).tail = (m₃.cells i).tail := by
  rw [(finish_eq_some h).2.2.2.2.2]
  dsimp only
  split
  · exact ⟨rfl, rfl, rfl⟩
  · exact ⟨rfl, rfl, rfl⟩

/-- Who is in which cell agrees with the tails. -/
theorem Placed.tail_iff {lo hi : Nat} (h : Placed c ubatch lo hi m m₃) (t i : Nat) :
    (m₃.cells t).tail = some i ↔ t ∈ (m₃.cells i).seqId := by
  by_cases hi : i < lo ∨ lo + ubatch.nSeqs ≤ i
  · exact h.mem i hi t
  · obtain ⟨s, hs, rfl⟩ : ∃ s < ubatch.nSeqs, i = s + lo := ⟨i - lo, by omega, by omega⟩
    rw [h.setSeqId s hs]
    constructor
    · intro htail
      by_cases ht : Mentions ubatch t
      · obtain ⟨s', hs', hmem⟩ := ht
        have heq := (h.setTail s' hs' t hmem).symm.trans htail
        obtain rfl : s' = s := Nat.add_right_cancel (some.inj heq)
        exact hmem
      · cases hwas : (m.cells t).tail with
        | none =>
          rw [h.otherNone t ht hwas] at htail
          exact absurd htail (by simp)
        | some i₀ =>
          obtain ⟨j, hj, hout, -⟩ := h.other t i₀ ht hwas
          have := some.inj (hj.symm.trans htail)
          omega
    · exact h.setTail s hs t

/-- A successful `find_slot` keeps the invariant. -/
theorem TailInv.findSlot (hinv : TailInv c m) (hhead : m.head < c.size) (hu : ubatch.WellFormed)
    (hpos : ∀ s < ubatch.nSeqs, 0 ≤ ubatch.lastPos s)
    (h : m.findSlot c ubatch = some (true, m')) : TailInv c m' ∧ m'.head < c.size := by
  obtain ⟨lo, hi, m₃, hplaced, hrun⟩ := findSlot_placed hu (findSlot_range hinv h) hinv hhead
  rw [hrun, map_eq_some_iff] at h
  obtain ⟨m'', hfin, heq⟩ := h
  obtain rfl : m'' = m' := (Prod.mk.inj heq).2
  have hcells := finish_cells hfin
  obtain ⟨hheadEq, -, hused, -⟩ := finish_eq_some hfin
  have hroom := hplaced.room
  have hhi := hplaced.hi_lt
  have hsets := hu.sets_pos
  refine ⟨⟨⟨fun i => ?_, hused⟩, fun t i => ?_, fun i hi => ?_⟩, by omega⟩
  · rw [(hcells i).1, (hcells i).2.1]
    by_cases hout : i < lo ∨ lo + ubatch.nSeqs ≤ i
    · by_cases h0 : (m₃.cells i).seqId = ∅
      · simp [h0, Int.not_le.mpr (hplaced.posEmpty i hout h0)]
      · obtain ⟨t, ht⟩ := Finset.nonempty_iff_ne_empty.mpr h0
        have htail := (hplaced.mem i hout t).mpr ht
        have hment : ¬Mentions ubatch t := by
          rintro ⟨s, hs, hmem⟩
          have := some.inj ((hplaced.setTail s hs t hmem).symm.trans htail)
          omega
        cases hwas : (m.cells t).tail with
        | none =>
          rw [hplaced.otherNone t hment hwas] at htail
          exact absurd htail (by simp)
        | some i₀ =>
          obtain ⟨j, hj, -, hposj, -⟩ := hplaced.other t i₀ hment hwas
          obtain rfl := some.inj (hj.symm.trans htail)
          have hold := (hinv.pos_iff i₀).mpr
            (Finset.ne_empty_of_mem ((hinv.tail_iff t i₀).mp hwas))
          simp [h0, hposj, hold]
    · obtain ⟨s, hs, rfl⟩ : ∃ s < ubatch.nSeqs, i = s + lo := ⟨i - lo, by omega, by omega⟩
      rw [hplaced.setPos s hs, hplaced.setSeqId s hs]
      simp [hpos s hs, Finset.ne_empty_of_mem (first_mem hu hs)]
  · rw [(hcells t).2.2, (hcells i).2.1]
    exact hplaced.tail_iff t i
  · rw [(hcells i).2.1, (hcells i).2.2]
    constructor
    · refine Finset.eq_empty_iff_forall_notMem.mpr fun t ht => ?_
      have := (hplaced.tailsLt t i ((hplaced.tail_iff t i).mpr ht)).2
      omega
    · by_contra hne
      obtain ⟨j, hj⟩ := ne_none_iff_exists'.mp hne
      have := (hplaced.tailsLt i j hj).1
      omega

end RecurrentMemory

end LlamaCpp
