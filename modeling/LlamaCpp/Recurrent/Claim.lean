import LlamaCpp.Recurrent.Invariant

/-!
# Cells for the sets of a ubatch

The first half of `find_slot`.  The sequences that become shared leave their cells
(`Dropped`), then every set gets a cell that only its first sequence names (`Claimed`).  An
empty cell is there whenever one is needed, because there are as many cells as sequences
(`exists_free`), and the search finds it because the cells that it has passed are taken
(`Searching`).
-/

namespace LlamaCpp.RecurrentMemory

open List Option

variable {c : RecurrentConfig} {m m' : RecurrentMemory}

/-! ## Sequences that become shared -/

/-- What is left when the sequences of a list have been taken out of their cells. -/
structure Dropped (c : RecurrentConfig) (m : RecurrentMemory) (ids : List Nat)
    (m' : RecurrentMemory) : Prop where
  inv : TailInv c m'
  seqId : ∀ s i, s ∈ (m'.cells i).seqId ↔ s ∈ (m.cells i).seqId ∧ s ∉ ids
  tail : ∀ s, (m'.cells s).tail = if s ∈ ids then none else (m.cells s).tail
  pos : ∀ i, (m'.cells i).seqId ≠ ∅ → (m'.cells i).pos = (m.cells i).pos
  src : ∀ i, (m'.cells i).seqId ≠ ∅ → (m'.cells i).src = (m.cells i).src
  /-- A cell that is emptied loses its source. -/
  srcEmpty : ∀ i, (m'.cells i).seqId = ∅ →
    (m'.cells i).src = if (m.cells i).seqId = ∅ then (m.cells i).src else none
  head : m'.head = m.head
  rsIdx : m'.rsIdx = m.rsIdx

theorem Dropped.nil (h : TailInv c m) : Dropped c m [] m where
  inv := h
  seqId s i := by simp
  tail s := by simp
  pos _ _ := rfl
  src _ _ := rfl
  srcEmpty i hi := by rw [if_pos hi]
  head := rfl
  rsIdx := rfl

/-- One more sequence. -/
theorem Dropped.concat {ids : List Nat} (h : Dropped c m ids m') (s : Nat) :
    Dropped c m (ids ++ [s]) (m'.releaseTail s) := by
  have hrel := h.inv.releaseTail s
  have hsub : ∀ i, ((m'.releaseTail s).cells i).seqId ≠ ∅ → (m'.cells i).seqId ≠ ∅ := by
    intro i hne h0
    rw [hrel.seqId, h0] at hne
    exact hne (Finset.erase_empty s)
  refine ⟨hrel.inv, fun t i => ?_, fun t => ?_, fun i hi => ?_, fun i hi => ?_, fun i hi => ?_,
    hrel.head.trans h.head, hrel.rsIdx.trans h.rsIdx⟩
  · rw [hrel.seqId, Finset.mem_erase, h.seqId, List.mem_append, mem_singleton, not_or]
    tauto
  · rw [hrel.tail, h.tail]
    by_cases ht : t = s <;> simp [ht]
  · rw [hrel.pos i hi, h.pos i (hsub i hi)]
  · rw [hrel.src i (.inl hi), h.src i (hsub i hi)]
  · by_cases hwas : (m'.cells i).seqId = ∅
    · rw [hrel.src i (.inr hwas), h.srcEmpty i hwas]
    · rw [hrel.srcNone i hi hwas]
      have hne : (m.cells i).seqId ≠ ∅ := by
        intro h0
        obtain ⟨t, ht⟩ := Finset.nonempty_iff_ne_empty.mpr hwas
        rw [h.seqId, h0] at ht
        exact absurd ht.1 (Finset.notMem_empty t)
      rw [if_neg hne]

def InRange (c : RecurrentConfig) (ids : List Int) : Prop := ∀ id ∈ ids, 0 ≤ id ∧ id < c.size

/-- The loop over a set, from an index on that is not the first. -/
theorem checkSet_rest {done : List Nat} {ids : List Int} {j : Nat} (hj : 0 < j)
    (h : Dropped c m done m') :
    ((checkSet c ids j m').1 = true ↔ InRange c ids) ∧
      (InRange c ids → Dropped c m (done ++ ids.map Int.toNat) (checkSet c ids j m').2) := by
  induction ids generalizing j m' done with
  | nil =>
    refine ⟨by simp [checkSet, InRange], fun _ => ?_⟩
    rw [map_nil, append_nil]
    exact h
  | cons id ids ih =>
    rw [checkSet]
    by_cases hid : id < 0 ∨ c.size ≤ id
    · rw [if_pos hid]
      have hno : ¬InRange c (id :: ids) := fun hr => by
        have := hr id mem_cons_self
        omega
      exact ⟨by simp [hno], fun hr => absurd hr hno⟩
    · rw [if_neg hid, if_pos hj]
      have hrange : InRange c (id :: ids) ↔ InRange c ids := by
        rw [InRange, forall_mem_cons]
        have hok : 0 ≤ id ∧ id < c.size := by omega
        simp [hok, InRange]
      have hrest := ih (Nat.succ_pos j) (h.concat id.toNat)
      rw [hrange]
      refine ⟨hrest.1, fun hr => ?_⟩
      rw [map_cons, append_cons]
      exact hrest.2 hr

/-- The loop over a set: all but the first sequence leave their cells. -/
theorem checkSet_all {done : List Nat} {ids : List Int} (h : Dropped c m done m') :
    ((checkSet c ids 0 m').1 = true ↔ InRange c ids) ∧
      (InRange c ids → Dropped c m (done ++ (ids.drop 1).map Int.toNat) (checkSet c ids 0 m').2) := by
  cases ids with
  | nil =>
    refine ⟨by simp [checkSet, InRange], fun _ => ?_⟩
    rw [drop_nil, map_nil, append_nil]
    exact h
  | cons id ids =>
    rw [checkSet]
    by_cases hid : id < 0 ∨ c.size ≤ id
    · rw [if_pos hid]
      have hno : ¬InRange c (id :: ids) := fun hr => by
        have := hr id mem_cons_self
        omega
      exact ⟨by simp [hno], fun hr => absurd hr hno⟩
    · rw [if_neg hid, if_neg (Nat.lt_irrefl 0)]
      have hrange : InRange c (id :: ids) ↔ InRange c ids := by
        rw [InRange, forall_mem_cons]
        have hok : 0 ≤ id ∧ id < c.size := by omega
        simp [hok, InRange]
      rw [hrange]
      exact checkSet_rest (Nat.succ_pos 0) h

/-- The sequences of the sets that are not the first of their set. -/
def sharedIds (ubatch : RecurrentUbatch) (sets : List Nat) : List Nat :=
  sets.flatMap fun s => ((ubatch.seqSet s).drop 1).map Int.toNat

variable {ubatch : RecurrentUbatch}

theorem checkSets_all {done sets : List Nat} (h : Dropped c m done m') :
    ((checkSets c ubatch sets m').1 = true ↔ ∀ s ∈ sets, InRange c (ubatch.seqSet s)) ∧
      ((∀ s ∈ sets, InRange c (ubatch.seqSet s)) →
        Dropped c m (done ++ sharedIds ubatch sets) (checkSets c ubatch sets m').2) := by
  induction sets generalizing m' done with
  | nil =>
    refine ⟨by simp [checkSets], fun _ => ?_⟩
    rw [sharedIds, flatMap_nil, append_nil]
    exact h
  | cons s sets ih =>
    obtain ⟨hone, hdrop⟩ := @checkSet_all c m m' done (ubatch.seqSet s) h
    rw [checkSets, forall_mem_cons]
    rcases hrun : checkSet c (ubatch.seqSet s) 0 m' with ⟨ok, m''⟩
    rw [hrun] at hone hdrop
    cases ok with
    | false =>
      have hno : ¬InRange c (ubatch.seqSet s) := fun hr => absurd (hone.mpr hr) Bool.false_ne_true
      exact ⟨by simp [hno], fun hr => absurd hr.1 hno⟩
    | true =>
      have hr := hone.mp rfl
      have hrest := ih (hdrop hr)
      refine ⟨hrest.1.trans ⟨fun h => ⟨hr, h⟩, fun h => h.2⟩, fun hall => ?_⟩
      have hids : done ++ sharedIds ubatch (s :: sets) =
          done ++ ((ubatch.seqSet s).drop 1).map Int.toNat ++ sharedIds ubatch sets := by
        rw [sharedIds, flatMap_cons, append_assoc, sharedIds]
      rw [hids]
      exact hrest.2 hall.2

/-! ## The search for an empty cell -/

/-- The cell is some sequence's. -/
def Taken (m : RecurrentMemory) (i : Nat) : Prop := ∃ t, (m.cells t).tail = some i

/-- Tails are sequences and cells. -/
def TailsLt (c : RecurrentConfig) (m : RecurrentMemory) : Prop :=
  ∀ s i, (m.cells s).tail = some i → s < c.size ∧ i < c.size

/-- There are as many cells as sequences, so a sequence that has no cell of its own leaves a
cell free. -/
theorem exists_free (hlt : TailsLt c m) {p : Nat} (hp : p < c.size)
    (h : (m.cells p).tail = none ∨ ∃ t, t ≠ p ∧ (m.cells t).tail = (m.cells p).tail) :
    ∃ i < c.size, ¬Taken m i := by
  by_contra hall
  have htaken : ∀ i < c.size, Taken m i := fun i hi => by
    by_contra hno
    exact hall ⟨i, hi, hno⟩
  choose! f hf using htaken
  have hmaps : ∀ i ∈ Finset.range c.size, f i ∈ Finset.range c.size := fun i hi =>
    Finset.mem_range.mpr (hlt _ _ (hf i (Finset.mem_range.mp hi))).1
  have hinj : Set.InjOn f (Finset.range c.size) := by
    intro i hi j hj hij
    have h1 := hf i (Finset.mem_range.mp hi)
    rw [hij, hf j (Finset.mem_range.mp hj)] at h1
    exact (some.inj h1).symm
  obtain ⟨i, hi, hpi⟩ := Finset.surjOn_of_injOn_of_card_le f hmaps hinj (Nat.le_refl _)
    (Finset.mem_range.mpr hp)
  have htail : (m.cells p).tail = some i := hpi ▸ hf i (Finset.mem_range.mp hi)
  rcases h with hnone | ⟨t, hne, heq⟩
  · rw [htail] at hnone
    exact absurd hnone (by simp)
  · have ht : (m.cells t).tail = some i := heq.trans htail
    obtain ⟨j, hj, htj⟩ := Finset.surjOn_of_injOn_of_card_le f hmaps hinj (Nat.le_refl _)
      (Finset.mem_range.mpr (hlt t i ht).1)
    have hij : some j = some i := (hf j (Finset.mem_range.mp hj)).symm.trans (htj ▸ ht)
    obtain rfl := some.inj hij
    exact hne (htj.symm.trans hpi)

/-- The search stops at the first empty cell. -/
theorem findEmpty_spec {k j : Nat} (hk : k ≤ c.size) (hj : j ≤ c.size)
    (h : ∃ d < k, (m.cells (wrap c (j + d))).seqId = ∅) :
    ∃ d < k, findEmpty c m k j = wrap c (j + d) ∧ (m.cells (wrap c (j + d))).seqId = ∅ ∧
      ∀ e < d, (m.cells (wrap c (j + e))).seqId ≠ ∅ := by
  induction k generalizing j with
  | zero =>
    obtain ⟨d, hd, -⟩ := h
    exact absurd hd (Nat.not_lt_zero d)
  | succ k ih =>
    rw [findEmpty]
    by_cases hempty : (m.cells (wrap c j)).seqId = ∅
    · rw [if_pos (isEmpty_iff.mpr hempty)]
      exact ⟨0, Nat.succ_pos k, rfl, hempty, fun e he => absurd he (Nat.not_lt_zero e)⟩
    · rw [if_neg (fun h => hempty (isEmpty_iff.mp h))]
      have hshift : ∀ d, d < k → wrap c (wrap c j + 1 + d) = wrap c (j + (d + 1)) := by
        intro d hd
        unfold wrap
        split <;> split <;> split <;> omega
      have hwrap : wrap c j + 1 ≤ c.size := by
        have := c.size_pos
        unfold wrap
        split <;> omega
      have hrest : ∃ d < k, (m.cells (wrap c (wrap c j + 1 + d))).seqId = ∅ := by
        obtain ⟨d, hd, h0⟩ := h
        cases d with
        | zero => exact absurd h0 hempty
        | succ d => exact ⟨d, Nat.lt_of_succ_lt_succ hd, by rwa [hshift d (Nat.lt_of_succ_lt_succ hd)]⟩
      obtain ⟨d, hd, hrun, h0, hfirst⟩ := ih (Nat.le_of_succ_le hk) hwrap hrest
      rw [hshift d hd] at hrun h0
      refine ⟨d + 1, Nat.succ_lt_succ hd, hrun, h0, fun e he => ?_⟩
      cases e with
      | zero => exact hempty
      | succ e =>
        rw [← hshift e (by omega)]
        exact hfirst e (Nat.lt_of_succ_lt_succ he)

variable {i : Nat}

/-- Searching behind a cell is searching from the next one. -/
theorem findEmptyBehind_eq {k : Nat} (hk : k ≤ c.size) (hi : i + 1 ≤ c.size)
    (h : ∃ d < k, (m.cells (wrap c (i + 1 + d))).seqId = ∅) :
    findEmptyBehind c m k i = findEmpty c m k (i + 1) := by
  induction k generalizing i with
  | zero =>
    obtain ⟨d, hd, -⟩ := h
    exact absurd hd (Nat.not_lt_zero d)
  | succ k ih =>
    rw [findEmptyBehind, findEmpty]
    by_cases hempty : (m.cells (wrap c (i + 1))).seqId = ∅
    · rw [if_pos (isEmpty_iff.mpr hempty), if_pos (isEmpty_iff.mpr hempty)]
    · have hne : ¬(m.cells (wrap c (i + 1))).isEmpty = true := fun h => hempty (isEmpty_iff.mp h)
      rw [if_neg hne, if_neg hne]
      have hwrap : wrap c (i + 1) + 1 ≤ c.size := by
        have := c.size_pos
        unfold wrap
        split <;> omega
      refine ih (Nat.le_of_succ_le hk) hwrap ?_
      obtain ⟨d, hd, h0⟩ := h
      cases d with
      | zero => exact absurd h0 hempty
      | succ d =>
        refine ⟨d, Nat.lt_of_succ_lt_succ hd, ?_⟩
        have hshift : wrap c (wrap c (i + 1) + 1 + d) = wrap c (i + 1 + (d + 1)) := by
          unfold wrap
          split <;> split <;> split <;> omega
        rwa [hshift]

/-- The cells that the search from `head` has passed are taken, and those ahead are either
taken and not empty, or free; it stands at a free cell as long as there is one. -/
def Searching (c : RecurrentConfig) (m : RecurrentMemory) (head next : Nat) : Prop :=
  (∃ i < c.size, ¬Taken m i) → ∃ d < c.size, next = wrap c (head + d) ∧ ¬Taken m next ∧
    (∀ e < d, Taken m (wrap c (head + e))) ∧
    ∀ e, d < e → e < c.size → Taken m (wrap c (head + e)) →
      (m.cells (wrap c (head + e))).seqId ≠ ∅

theorem exists_wrap {head : Nat} (hhead : head < c.size) (hi : i < c.size) : ∃ d < c.size, i = wrap c (head + d) := by
  by_cases h : head ≤ i
  · refine ⟨i - head, by omega, ?_⟩
    unfold wrap
    split <;> omega
  · refine ⟨i + c.size - head, by omega, ?_⟩
    unfold wrap
    split <;> omega

theorem wrap_lt (h : i < 2 * c.size) : wrap c i < c.size := by
  unfold wrap
  split <;> omega

theorem searching_findEmpty (hinv : TailInv c m) {head : Nat} (hhead : head < c.size) :
    Searching c m head (findEmpty c m c.size head) := by
  rintro ⟨i, hi, hfree⟩
  have hempty : ∀ i, ¬Taken m i ↔ (m.cells i).seqId = ∅ := by
    intro i
    rw [Finset.eq_empty_iff_forall_notMem, Taken, not_exists]
    exact forall_congr' fun s => not_congr (hinv.tail_iff s i)
  obtain ⟨d, hd, rfl⟩ := exists_wrap hhead hi
  obtain ⟨e, he, hrun, h0, hfirst⟩ := findEmpty_spec (Nat.le_refl _) (Nat.le_of_lt hhead)
    ⟨d, hd, (hempty _).mp hfree⟩
  refine ⟨e, he, hrun, ?_, fun k hk => ?_, fun k _ _ htaken h0 => ?_⟩
  · rw [hrun]
    exact (hempty _).mpr h0
  · by_contra hno
    exact hfirst k hk ((hempty _).mp hno)
  · exact (hempty _).mpr h0 htaken

/-- The search after the free cell has been taken. -/
theorem Searching.behind {head next : Nat} (hhead : head < c.size) (h : Searching c m head next)
    (hfree : ∃ i < c.size, ¬Taken m i) (htaken : ∀ i, Taken m' i ↔ Taken m i ∨ i = next)
    (hkeep : ∀ i, (m.cells i).seqId ≠ ∅ → (m'.cells i).seqId ≠ ∅)
    (hown : ∀ i, (m'.cells i).seqId ≠ ∅ → Taken m' i) :
    Searching c m' head (findEmptyBehind c m' c.size next) := by
  obtain ⟨d, hd, hnext, -, hpassed, hahead⟩ := h hfree
  rintro ⟨f, hf, hffree⟩
  have hsize := c.size_pos
  have hnextlt : next < c.size := hnext ▸ wrap_lt (by omega)
  have hsum : ∀ e, d + 1 + e < c.size → wrap c (next + 1 + e) = wrap c (head + (d + 1 + e)) := by
    intro e he
    rw [hnext]
    unfold wrap
    split <;> split <;> split <;> omega
  have hneq : ∀ e, d < e → e < c.size → wrap c (head + e) ≠ next := by
    intro e hde he
    rw [hnext]
    unfold wrap
    split <;> split <;> omega
  have hempty : (m'.cells f).seqId = ∅ := by
    by_contra hne
    exact hffree (hown f hne)
  -- the free cell lies ahead
  obtain ⟨df, hdf, rfl⟩ := exists_wrap hhead hf
  have hlt : d < df := by
    by_contra hge
    refine hffree ((htaken _).mpr ?_)
    rcases Nat.lt_or_eq_of_le (Nat.le_of_not_lt hge) with hlt | rfl
    · exact .inl (hpassed df hlt)
    · exact .inr hnext.symm
  have hat : d + 1 + (df - d - 1) = df := by omega
  have hfound : (m'.cells (wrap c (next + 1 + (df - d - 1)))).seqId = ∅ := by
    rw [hsum _ (by omega), hat]
    exact hempty
  have hexists : ∃ e < c.size, (m'.cells (wrap c (next + 1 + e))).seqId = ∅ :=
    ⟨df - d - 1, by omega, hfound⟩
  rw [findEmptyBehind_eq (Nat.le_refl _) (by omega) hexists]
  obtain ⟨e, he, hrun, h0, hfirst⟩ := findEmpty_spec (Nat.le_refl _) (by omega) hexists
  have hle : e ≤ df - d - 1 := by
    by_contra hgt
    exact hfirst _ (Nat.lt_of_not_le hgt) hfound
  rw [hsum e (by omega)] at hrun h0
  have hblank : ∀ k, d < k → k < c.size → (m'.cells (wrap c (head + k))).seqId = ∅ →
      ¬Taken m' (wrap c (head + k)) := by
    intro k hdk hk h0 ht
    rcases (htaken _).mp ht with ht | heq
    · exact hkeep _ (hahead k hdk hk ht) h0
    · exact hneq k hdk hk heq
  refine ⟨d + 1 + e, by omega, hrun, ?_, fun k hk => ?_, fun k hk hkc ht h0 => ?_⟩
  · rw [hrun]
    exact hblank _ (by omega) (by omega) h0
  · rcases Nat.lt_trichotomy k d with hlt | rfl | hgt
    · exact (htaken _).mpr (.inl (hpassed k hlt))
    · exact (htaken _).mpr (.inr hnext.symm)
    · refine hown _ ?_
      have hk' : d + 1 + (k - d - 1) = k := by omega
      have hne := hfirst (k - d - 1) (by omega)
      rwa [hsum _ (by omega), hk'] at hne
  · exact hblank k (by omega) hkc h0 ht

/-! ## Claiming cells -/

/-- The sequences of `done` have claimed a cell; `m₀` is the memory before the loop. -/
structure Claimed (c : RecurrentConfig) (m₀ : RecurrentMemory) (done : List Nat)
    (m : RecurrentMemory) : Prop where
  tailsLt : TailsLt c m
  mem_tail : ∀ s i, s ∈ (m.cells i).seqId → (m.cells s).tail = some i
  tail_mem : ∀ s i, (m.cells s).tail = some i →
    s ∈ (m.cells i).seqId ∨ (s ∈ done ∧ (m.cells i).seqId = ∅)
  /-- A claimed cell is nobody else's. -/
  own : ∀ s ∈ done, ∃ i, (m.cells s).tail = some i ∧ ∀ t, (m.cells t).tail = some i → t = s
  other : ∀ t, t ∉ done → (m.cells t).tail = (m₀.cells t).tail
  /-- A sequence with a state has it in its cell, which was its cell before or was empty. -/
  kept : ∀ t i₀, (m₀.cells t).tail = some i₀ → ∃ i, (m.cells t).tail = some i ∧
    t ∈ (m.cells i).seqId ∧ (m.cells i).pos = (m₀.cells i₀).pos ∧
    (m.cells i).src = (m₀.cells i₀).src ∧ (i = i₀ ∨ (m₀.cells i).seqId = ∅)
  /-- A sequence without a state has got an empty cell. -/
  fresh : ∀ s ∈ done, (m₀.cells s).tail = none → ∃ i, (m.cells s).tail = some i ∧
    (m.cells i).seqId = ∅ ∧ (m₀.cells i).seqId = ∅ ∧ (m.cells i).src = (m₀.cells i).src
  /-- The cells that are not taken are as they were. -/
  free : ∀ i, ¬Taken m i → (m₀.cells i).seqId = ∅ ∧ (m.cells i).pos = (m₀.cells i).pos ∧
    (m.cells i).src = (m₀.cells i).src
  head : m.head = m₀.head
  rsIdx : m.rsIdx = m₀.rsIdx

theorem Claimed.start (h : TailInv c m) : Claimed c m [] m where
  tailsLt s i hi := h.lt ((h.tail_iff s i).mp hi)
  mem_tail s i hi := (h.tail_iff s i).mpr hi
  tail_mem s i hi := .inl ((h.tail_iff s i).mp hi)
  own s hs := absurd hs not_mem_nil
  other _ _ := rfl
  kept t i hi := ⟨i, hi, (h.tail_iff t i).mp hi, rfl, rfl, .inl rfl⟩
  fresh s hs := absurd hs not_mem_nil
  free i hi := by
    refine ⟨Finset.eq_empty_iff_forall_notMem.mpr fun s hs => hi ⟨s, (h.tail_iff s i).mpr hs⟩, rfl, rfl⟩
  head := rfl
  rsIdx := rfl

section Step

variable {m₀ : RecurrentMemory} {done : List Nat} {s t e : Nat}

/-- A cell that is not taken is empty. -/
theorem Claimed.empty_of_free (h : Claimed c m₀ done m) (hi : ¬Taken m i) : (m.cells i).seqId = ∅ :=
  Finset.eq_empty_iff_forall_notMem.mpr fun s hs => hi ⟨s, h.mem_tail s i hs⟩

/-- The first sequence of a set owns its cell. -/
theorem Claimed.claimOwn (h : Claimed c m₀ done m) (hnew : s ∉ done)
    (htail : (m.cells s).tail = some t) (hcard : (m.cells t).seqId.card = 1) :
    Claimed c m₀ (s :: done) m := by
  have hs : s ∈ (m.cells t).seqId := (h.tail_mem s t htail).resolve_right fun h => hnew h.1
  refine { h with tail_mem := ?_, own := ?_, other := ?_, fresh := ?_ }
  · exact fun u i hu => (h.tail_mem u i hu).imp_right fun h => ⟨mem_cons_of_mem _ h.1, h.2⟩
  · intro u hu
    rcases mem_cons.mp hu with rfl | hu
    · refine ⟨t, htail, fun v hv => ?_⟩
      rcases h.tail_mem v t hv with hv | ⟨-, h0⟩
      · exact Finset.card_le_one.mp (Nat.le_of_eq hcard) v hv u hs
      · rw [h0] at hs
        exact absurd hs (Finset.notMem_empty u)
    · exact h.own u hu
  · exact fun u hu => h.other u fun hd => hu (mem_cons_of_mem _ hd)
  · intro u hu hnone
    rcases mem_cons.mp hu with rfl | hu
    · rw [← h.other u hnew, htail] at hnone
      exact absurd hnone (by simp)
    · exact h.fresh u hu hnone

/-- The first sequence of a set has no state and gets an empty cell. -/
theorem Claimed.claimFresh (h : Claimed c m₀ done m) (hs : s < c.size) (hnew : s ∉ done)
    (htail : (m.cells s).tail = none) (he : e < c.size) (hfree : ¬Taken m e) :
    Claimed c m₀ (s :: done) (m.setTail s (some e)) := by
  have h0 := h.empty_of_free hfree
  have hne : ∀ u i, (m.cells u).tail = some i → u ≠ s ∧ i ≠ e := by
    intro u i hu
    constructor
    · rintro rfl
      rw [htail] at hu
      exact absurd hu (by simp)
    · rintro rfl
      exact hfree ⟨u, hu⟩
  have htails : ∀ u i, ((m.setTail s (some e)).cells u).tail = some i ↔
      (m.cells u).tail = some i ∨ (u = s ∧ i = e) := by
    intro u i
    by_cases hu : u = s
    · subst hu
      rw [setTail_tail_same, htail]
      simp [eq_comm]
    · rw [setTail_tail_ne hu]
      simp [hu]
  have htaken : ∀ i, Taken (m.setTail s (some e)) i ↔ Taken m i ∨ i = e := by
    intro i
    simp only [Taken, htails, exists_or]
    simp
  refine
    { tailsLt := ?_, mem_tail := ?_, tail_mem := ?_, own := ?_, other := ?_, kept := ?_,
      fresh := ?_, free := ?_, head := h.head, rsIdx := h.rsIdx }
  · intro u i hu
    rcases (htails u i).mp hu with hu | ⟨rfl, rfl⟩
    · exact h.tailsLt u i hu
    · exact ⟨hs, he⟩
  · intro u i hu
    rw [setTail_seqId] at hu
    exact (htails u i).mpr (.inl (h.mem_tail u i hu))
  · intro u i hu
    rw [setTail_seqId]
    rcases (htails u i).mp hu with hu | ⟨rfl, rfl⟩
    · exact (h.tail_mem u i hu).imp_right fun h => ⟨mem_cons_of_mem _ h.1, h.2⟩
    · exact .inr ⟨mem_cons_self, h0⟩
  · intro u hu
    rcases mem_cons.mp hu with rfl | hu
    · refine ⟨e, (htails u e).mpr (.inr ⟨rfl, rfl⟩), fun v hv => ?_⟩
      rcases (htails v e).mp hv with hv | ⟨rfl, -⟩
      · exact absurd rfl (hne v e hv).2
      · rfl
    · obtain ⟨i, hi, honly⟩ := h.own u hu
      refine ⟨i, (htails u i).mpr (.inl hi), fun v hv => ?_⟩
      rcases (htails v i).mp hv with hv | ⟨-, rfl⟩
      · exact honly v hv
      · exact absurd rfl (hne u i hi).2
  · intro u hu
    rw [mem_cons, not_or] at hu
    rw [setTail_tail_ne hu.1]
    exact h.other u hu.2
  · intro u i₀ hu
    obtain ⟨i, hi, hmem, hpos, hsrc, horigin⟩ := h.kept u i₀ hu
    refine ⟨i, (htails u i).mpr (.inl hi), ?_, ?_, ?_, horigin⟩
    · rwa [setTail_seqId]
    · rwa [setTail_pos]
    · rwa [setTail_src]
  · intro u hu hnone
    rcases mem_cons.mp hu with rfl | hu
    · refine ⟨e, setTail_tail_same .., ?_, (h.free e hfree).1, ?_⟩
      · rwa [setTail_seqId]
      · rw [setTail_src]
        exact (h.free e hfree).2.2
    · obtain ⟨i, hi, hseq, hrest⟩ := h.fresh u hu hnone
      refine ⟨i, (htails u i).mpr (.inl hi), ?_, ?_⟩
      · rwa [setTail_seqId]
      · rwa [setTail_src]
  · intro i hi
    rw [htaken, not_or] at hi
    rw [setTail_pos, setTail_src]
    exact h.free i hi.1

structure Copied (m : RecurrentMemory) (s t e : Nat) (m' : RecurrentMemory) : Prop where
  seqId : ∀ i, (m'.cells i).seqId =
    if i = e then {s} else if i = t then (m.cells t).seqId.erase s else (m.cells i).seqId
  pos : ∀ i, (m'.cells i).pos = if i = e then (m.cells t).pos else (m.cells i).pos
  src : ∀ i, (m'.cells i).src = if i = e then (m.cells t).src else (m.cells i).src
  tail : ∀ i, (m'.cells i).tail = if i = s then some e else (m.cells i).tail
  left : ((m.cells t).seqId.erase s) ≠ ∅
  head : m'.head = m.head
  rsIdx : m'.rsIdx = m.rsIdx

/-- The old tail of a sequence is copied into an empty cell. -/
theorem takeEmptyCell_copy (he : e < c.size) (h0 : (m.cells e).seqId = ∅)
    (htail : (m.cells s).tail = some t) (hs : s ∈ (m.cells t).seqId)
    (hshared : (m.cells t).seqId.card ≠ 1) :
    ∃ m', takeEmptyCell c m s e = some m' ∧ Copied m s t e m' := by
  have het : t ≠ e := by
    rintro rfl
    rw [h0] at hs
    exact absurd hs (Finset.notMem_empty s)
  have hleft : (m.cells t).seqId.erase s ≠ ∅ := by
    intro hempty
    have hcard := Finset.card_erase_of_mem hs
    have hpos := Finset.card_pos.mpr ⟨s, hs⟩
    rw [hempty, Finset.card_empty] at hcard
    omega
  have hok : ¬(c.size ≤ e ∨ ¬(m.cells e).isEmpty) := by
    rw [not_or, not_not, isEmpty_iff]
    exact ⟨Nat.not_le_of_lt he, h0⟩
  rw [takeEmptyCell, if_neg hok, htail]
  dsimp only
  rw [if_neg]
  · refine ⟨_, rfl, fun i => ?_, fun i => ?_, fun i => ?_, fun i => ?_, hleft, rfl, rfl⟩
    · rw [setTail_seqId]
      by_cases hi : i = e
      · subst hi
        simp [Ne.symm het, h0]
      · by_cases hit : i = t
        · subst hit
          simp [hi]
        · simp [hi, hit]
    · rw [setTail_pos]
      by_cases hi : i = e
      · subst hi
        simp [Ne.symm het]
      · by_cases hit : i = t
        · subst hit
          simp [hi]
        · simp [hi, hit]
    · rw [setTail_src]
      by_cases hi : i = e
      · subst hi
        simp [Ne.symm het]
      · by_cases hit : i = t
        · subst hit
          simp [hi]
        · simp [hi, hit]
    · by_cases his : i = s
      · subst his
        simp
      · rw [setTail_tail_ne his, if_neg his]
        by_cases hi : i = e
        · subst hi
          simp [Ne.symm het]
        · by_cases hit : i = t
          · subst hit
            simp [hi]
          · simp [hi, hit]
  · rw [isEmpty_iff]
    simpa [het] using hleft

/-- The first sequence of a set shares its cell and gets a copy. -/
theorem Claimed.claimCopy (h : Claimed c m₀ done m) (hs : s < c.size) (hnew : s ∉ done)
    (htail : (m.cells s).tail = some t) (he : e < c.size) (hfree : ¬Taken m e)
    (hcopy : Copied m s t e m') : Claimed c m₀ (s :: done) m' := by
  have h0 := h.empty_of_free hfree
  have hmem : s ∈ (m.cells t).seqId := (h.tail_mem s t htail).resolve_right fun h => hnew h.1
  have hte : t ≠ e := fun h => hfree ⟨s, h ▸ htail⟩
  have htails : ∀ u i, (m'.cells u).tail = some i ↔ (u ≠ s ∧ (m.cells u).tail = some i) ∨ (u = s ∧ i = e) := by
    intro u i
    rw [hcopy.tail]
    by_cases hu : u = s
    · simp [hu, eq_comm]
    · simp [hu]
  have hneE : ∀ u i, (m.cells u).tail = some i → i ≠ e := by
    rintro u i hu rfl
    exact hfree ⟨u, hu⟩
  -- a cell with a sequence besides `s` keeps it
  have hmemOf : ∀ u i, u ≠ s → i ≠ e → (u ∈ (m'.cells i).seqId ↔ u ∈ (m.cells i).seqId) := by
    intro u i hu hi
    rw [hcopy.seqId, if_neg hi]
    split
    · rename_i hit
      rw [hit]
      simp [hu]
    · rfl
  have hother : ∀ u i, u ≠ s → (m.cells u).tail = some i → ((m.cells i).seqId = ∅ ↔ (m'.cells i).seqId = ∅) := by
    intro u i hu hi
    rw [hcopy.seqId, if_neg (hneE u i hi)]
    split
    · rename_i hit
      rw [hit]
      simp [hcopy.left, Finset.ne_empty_of_mem hmem]
    · rfl
  refine
    { tailsLt := ?_, mem_tail := ?_, tail_mem := ?_, own := ?_, other := ?_, kept := ?_,
      fresh := ?_, free := ?_, head := hcopy.head.trans h.head, rsIdx := hcopy.rsIdx.trans h.rsIdx }
  · intro u i hu
    rcases (htails u i).mp hu with ⟨-, hu⟩ | ⟨rfl, rfl⟩
    · exact h.tailsLt u i hu
    · exact ⟨hs, he⟩
  · intro u i hu
    rw [hcopy.seqId] at hu
    rw [htails]
    split at hu
    · rename_i hi
      exact .inr ⟨Finset.mem_singleton.mp hu, hi⟩
    · split at hu
      · rename_i hit
        rw [Finset.mem_erase] at hu
        exact .inl ⟨hu.1, h.mem_tail u i (hit ▸ hu.2)⟩
      · rename_i hit
        have htu := h.mem_tail u i hu
        refine .inl ⟨?_, htu⟩
        rintro rfl
        rw [htail] at htu
        exact hit (some.inj htu).symm
  · intro u i hu
    rcases (htails u i).mp hu with ⟨hne, hu⟩ | ⟨rfl, rfl⟩
    · refine (h.tail_mem u i hu).imp (fun hm => ?_) fun hd => ?_
      · exact (hmemOf u i hne (hneE u i hu)).mpr hm
      · exact ⟨mem_cons_of_mem _ hd.1, (hother u i hne hu).mp hd.2⟩
    · rw [hcopy.seqId, if_pos rfl]
      exact .inl (Finset.mem_singleton_self u)
  · intro u hu
    rcases mem_cons.mp hu with rfl | hu
    · refine ⟨e, (htails u e).mpr (.inr ⟨rfl, rfl⟩), fun v hv => ?_⟩
      rcases (htails v e).mp hv with ⟨-, hv⟩ | ⟨rfl, -⟩
      · exact absurd rfl (hneE v e hv)
      · rfl
    · obtain ⟨i, hi, honly⟩ := h.own u hu
      have hus : u ≠ s := fun h => hnew (h ▸ hu)
      refine ⟨i, (htails u i).mpr (.inl ⟨hus, hi⟩), fun v hv => ?_⟩
      rcases (htails v i).mp hv with ⟨-, hv⟩ | ⟨-, rfl⟩
      · exact honly v hv
      · exact absurd rfl (hneE u i hi)
  · intro u hu
    rw [mem_cons, not_or] at hu
    rw [hcopy.tail, if_neg hu.1]
    exact h.other u hu.2
  · intro u i₀ hu
    obtain ⟨i, hi, hm, hpos, hsrc, horigin⟩ := h.kept u i₀ hu
    by_cases hus : u = s
    · subst hus
      rw [htail] at hi
      obtain rfl := some.inj hi
      refine ⟨e, (htails u e).mpr (.inr ⟨rfl, rfl⟩), ?_, ?_, ?_, .inr (h.free e hfree).1⟩
      · rw [hcopy.seqId, if_pos rfl]
        exact Finset.mem_singleton_self u
      · rw [hcopy.pos, if_pos rfl, hpos]
      · rw [hcopy.src, if_pos rfl, hsrc]
    · have hie := hneE u i hi
      refine ⟨i, (htails u i).mpr (.inl ⟨hus, hi⟩), (hmemOf u i hus hie).mpr hm, ?_, ?_, horigin⟩
      · rw [hcopy.pos, if_neg hie, hpos]
      · rw [hcopy.src, if_neg hie, hsrc]
  · intro u hu hnone
    rcases mem_cons.mp hu with rfl | hu
    · rw [← h.other u hnew, htail] at hnone
      exact absurd hnone (by simp)
    · obtain ⟨i, hi, hseq, h0', hsrc⟩ := h.fresh u hu hnone
      have hus : u ≠ s := fun h => hnew (h ▸ hu)
      refine ⟨i, (htails u i).mpr (.inl ⟨hus, hi⟩), (hother u i hus hi).mp hseq, h0', ?_⟩
      rw [hcopy.src, if_neg (hneE u i hi), hsrc]
  · intro i hi
    have hie : i ≠ e := by
      rintro rfl
      exact hi ⟨s, (htails s i).mpr (.inr ⟨rfl, rfl⟩)⟩
    have hnot : ¬Taken m i := by
      rintro ⟨u, hu⟩
      by_cases hus : u = s
      · subst hus
        rw [htail] at hu
        obtain rfl := some.inj hu
        -- the cell keeps another sequence
        obtain ⟨v, hv⟩ := Finset.nonempty_iff_ne_empty.mpr hcopy.left
        rw [Finset.mem_erase] at hv
        exact hi ⟨v, (htails v t).mpr (.inl ⟨hv.1, h.mem_tail v t hv.2⟩)⟩
      · exact hi ⟨u, (htails u i).mpr (.inl ⟨hus, hu⟩)⟩
    rw [hcopy.pos, hcopy.src, if_neg hie, if_neg hie]
    exact h.free i hnot

end Step

/-! ## The loop over the sets -/

/-- The range covers the claimed cells and no more. -/
structure Covers (c : RecurrentConfig) (m : RecurrentMemory) (done : List Nat) (min max : Nat) :
    Prop where
  within : ∀ s ∈ done, ∀ i, (m.cells s).tail = some i → min ≤ i ∧ i ≤ max
  min_mem : done ≠ [] → ∃ s ∈ done, (m.cells s).tail = some min
  max_mem : done ≠ [] → ∃ s ∈ done, (m.cells s).tail = some max
  start : done = [] → min = c.size - 1 ∧ max = 0

theorem Covers.step {σ : SlotSearch} {done : List Nat} {s : Nat}
    (h : Covers c m done σ.min σ.max) (hi : i < c.size) (hs : (m'.cells s).tail = some i)
    (hsame : ∀ t ∈ done, (m'.cells t).tail = (m.cells t).tail) :
    Covers c m' (s :: done) (σ.cover i).min (σ.cover i).max := by
  have hmin : (σ.cover i).min = if i < σ.min then i else σ.min := rfl
  have hmax : (σ.cover i).max = if σ.max < i then i else σ.max := rfl
  refine ⟨fun t ht j hj => ?_, fun _ => ?_, fun _ => ?_, fun h => absurd h (cons_ne_nil _ _)⟩
  · rw [hmin, hmax]
    rcases mem_cons.mp ht with rfl | ht
    · obtain rfl : i = j := some.inj (hs.symm.trans hj)
      constructor <;> split <;> omega
    · rw [hsame t ht] at hj
      obtain ⟨h1, h2⟩ := h.within t ht j hj
      constructor <;> split <;> omega
  · rw [hmin]
    split
    · exact ⟨s, mem_cons_self, hs⟩
    · rename_i hge
      by_cases hnil : done = []
      · have hfirst : σ.min = i := by
          have := (h.start hnil).1
          omega
        exact ⟨s, mem_cons_self, hfirst ▸ hs⟩
      · obtain ⟨t, ht, htail⟩ := h.min_mem hnil
        exact ⟨t, mem_cons_of_mem _ ht, (hsame t ht).trans htail⟩
  · rw [hmax]
    split
    · exact ⟨s, mem_cons_self, hs⟩
    · rename_i hge
      by_cases hnil : done = []
      · have hfirst : σ.max = i := by
          have := (h.start hnil).2
          omega
        exact ⟨s, mem_cons_self, hfirst ▸ hs⟩
      · obtain ⟨t, ht, htail⟩ := h.max_mem hnil
        exact ⟨t, mem_cons_of_mem _ ht, (hsame t ht).trans htail⟩

section Loop

variable {m₀ : RecurrentMemory} {head : Nat}

/-- One set gets its cell. -/
theorem Claimed.claim {done : List Nat} {σ : SlotSearch} {s : Nat} (hhead : head < c.size)
    (h : Claimed c m₀ done σ.mem) (hcov : Covers c σ.mem done σ.min σ.max)
    (hsearch : Searching c σ.mem head σ.nextEmptyCell) (hs : s < c.size) (hnew : s ∉ done)
    (last : Bool) :
    ∃ σ', claimCell c s last σ = some σ' ∧ Claimed c m₀ (s :: done) σ'.mem ∧
      Covers c σ'.mem (s :: done) σ'.min σ'.max ∧
      (last = false → Searching c σ'.mem head σ'.nextEmptyCell) := by
  have hne : ∀ t ∈ done, t ≠ s := fun t ht h => hnew (h ▸ ht)
  -- what follows once an empty cell has been taken
  have htake : (∃ i < c.size, ¬Taken σ.mem i) → ∀ m', takeEmptyCell c σ.mem s σ.nextEmptyCell = some m' →
      Claimed c m₀ (s :: done) m' → (∀ t, (m'.cells t).tail =
        if t = s then some σ.nextEmptyCell else (σ.mem.cells t).tail) →
      (∀ i, Taken m' i ↔ Taken σ.mem i ∨ i = σ.nextEmptyCell) →
      (∀ i, (σ.mem.cells i).seqId ≠ ∅ → (m'.cells i).seqId ≠ ∅) →
      ∃ σ', (do
          let m ← takeEmptyCell c σ.mem s σ.nextEmptyCell
          let next := if last then σ.nextEmptyCell
            else findEmptyBehind c m c.size σ.nextEmptyCell
          return { σ with mem := m, nextEmptyCell := next }.cover σ.nextEmptyCell : Option SlotSearch) =
          some σ' ∧ Claimed c m₀ (s :: done) σ'.mem ∧
        Covers c σ'.mem (s :: done) σ'.min σ'.max ∧
        (last = false → Searching c σ'.mem head σ'.nextEmptyCell) := by
    intro hfree m' hrun hcl htails htaken hkeep
    have hlt := (hcl.tailsLt s σ.nextEmptyCell (by rw [htails, if_pos rfl])).2
    rw [hrun]
    refine ⟨_, rfl, hcl, ?_, ?_⟩
    · exact Covers.step (σ := σ) hcov hlt ((htails s).trans (if_pos rfl))
        fun t ht => (htails t).trans (if_neg (hne t ht))
    · rintro rfl
      exact hsearch.behind hhead hfree htaken hkeep fun i hi => by
        obtain ⟨t, ht⟩ := Finset.nonempty_iff_ne_empty.mpr hi
        exact ⟨t, hcl.mem_tail t i ht⟩
  cases htail : (σ.mem.cells s).tail with
  | none =>
    have hfree := exists_free h.tailsLt hs (.inl htail)
    obtain ⟨d, hd, hnext, hnot, -⟩ := hsearch hfree
    have hlt : σ.nextEmptyCell < c.size := hnext ▸ wrap_lt (by omega)
    have hempty := h.empty_of_free hnot
    have hrun : takeEmptyCell c σ.mem s σ.nextEmptyCell = some (σ.mem.setTail s (some σ.nextEmptyCell)) := by
      rw [takeEmptyCell, if_neg, htail]
      rw [not_or, not_not, isEmpty_iff]
      exact ⟨Nat.not_le_of_lt hlt, hempty⟩
    rw [claimCell]
    simp only [htail]
    refine htake hfree _ hrun (h.claimFresh hs hnew htail hlt hnot) (fun t => ?_) (fun i => ?_)
      fun i hi => ?_
    · by_cases ht : t = s
      · rw [if_pos ht, ht, setTail_tail_same]
      · rw [if_neg ht, setTail_tail_ne ht]
    · constructor
      · rintro ⟨t, ht⟩
        by_cases hts : t = s
        · rw [hts, setTail_tail_same] at ht
          exact .inr (some.inj ht).symm
        · rw [setTail_tail_ne hts] at ht
          exact .inl ⟨t, ht⟩
      · rintro (⟨t, ht⟩ | rfl)
        · refine ⟨t, ?_⟩
          rw [setTail_tail_ne]
          · exact ht
          · rintro rfl
            rw [htail] at ht
            exact absurd ht (by simp)
        · exact ⟨s, setTail_tail_same ..⟩
    · rwa [setTail_seqId]
  | some t =>
    have hmem : s ∈ (σ.mem.cells t).seqId :=
      (h.tail_mem s t htail).resolve_right fun h => hnew h.1
    rw [claimCell]
    simp only [htail, not_true_eq_false, if_false, hmem]
    by_cases hcard : (σ.mem.cells t).seqId.card = 1
    · rw [if_pos hcard]
      refine ⟨_, rfl, h.claimOwn hnew htail hcard, ?_, fun _ => hsearch⟩
      exact hcov.step (h.tailsLt s t htail).2 htail fun _ _ => rfl
    · rw [if_neg hcard]
      have hfree : ∃ i < c.size, ¬Taken σ.mem i := by
        refine exists_free h.tailsLt hs (.inr ?_)
        have htwo : 1 < (σ.mem.cells t).seqId.card := by
          have := Finset.card_pos.mpr ⟨s, hmem⟩
          omega
        obtain ⟨u, hu, hus⟩ := Finset.exists_mem_ne htwo s
        exact ⟨u, hus, (h.mem_tail u t hu).trans htail.symm⟩
      obtain ⟨d, hd, hnext, hnot, -⟩ := hsearch hfree
      have hlt : σ.nextEmptyCell < c.size := hnext ▸ wrap_lt (by omega)
      have hempty := h.empty_of_free hnot
      obtain ⟨m', hrun, hcopy⟩ := takeEmptyCell_copy hlt hempty htail hmem hcard
      refine htake hfree m' hrun (h.claimCopy hs hnew htail hlt hnot hcopy) hcopy.tail (fun i => ?_)
        fun i hi => ?_
      · constructor
        · rintro ⟨u, hu⟩
          rw [hcopy.tail] at hu
          split at hu
          · exact .inr (some.inj hu).symm
          · exact .inl ⟨u, hu⟩
        · rintro (⟨u, hu⟩ | rfl)
          · by_cases hus : u = s
            · -- the cell that `s` leaves keeps another sequence
              rw [hus, htail] at hu
              obtain rfl := some.inj hu
              obtain ⟨v, hv⟩ := Finset.nonempty_iff_ne_empty.mpr hcopy.left
              rw [Finset.mem_erase] at hv
              refine ⟨v, ?_⟩
              rw [hcopy.tail, if_neg hv.1]
              exact h.mem_tail v t hv.2
            · refine ⟨u, ?_⟩
              rw [hcopy.tail, if_neg hus]
              exact hu
          · refine ⟨s, ?_⟩
            rw [hcopy.tail, if_pos rfl]
      · rw [hcopy.seqId]
        split
        · exact Finset.singleton_ne_empty s
        · split
          · exact hcopy.left
          · exact hi

/-- The first sequences of the sets before set `k`, the last one first. -/
def firstsBefore (ubatch : RecurrentUbatch) (k : Nat) : List Nat :=
  ((List.range k).map ubatch.first).reverse

theorem mem_firstsBefore {k t : Nat} : t ∈ firstsBefore ubatch k ↔ ∃ s < k, ubatch.first s = t := by
  simp [firstsBefore]

theorem firstsBefore_succ (ubatch : RecurrentUbatch) (k : Nat) :
    firstsBefore ubatch (k + 1) = ubatch.first k :: firstsBefore ubatch k := by
  simp [firstsBefore, range_succ]

/-- Every set gets a cell of its own. -/
theorem claimCells_ok (hinv : TailInv c m₀) (hhead : m₀.head < c.size)
    (hlt : ∀ s < ubatch.nSeqs, ubatch.first s < c.size)
    (hinj : ∀ s < ubatch.nSeqs, ∀ t < ubatch.nSeqs, ubatch.first s = ubatch.first t → s = t) :
    ∃ σ, (List.range ubatch.nSeqs).foldlM
        (fun σ s => claimCell c (ubatch.first s) (s + 1 = ubatch.nSeqs) σ)
        { mem := m₀, nextEmptyCell := findEmpty c m₀ c.size m₀.head, min := c.size - 1, max := 0 } =
        some σ ∧
      Claimed c m₀ (firstsBefore ubatch ubatch.nSeqs) σ.mem ∧
      Covers c σ.mem (firstsBefore ubatch ubatch.nSeqs) σ.min σ.max := by
  have hloop := @Loops.foldlM_range_ok SlotSearch
    (fun σ s => claimCell c (ubatch.first s) (s + 1 = ubatch.nSeqs) σ)
    (fun k σ => Claimed c m₀ (firstsBefore ubatch k) σ.mem ∧
      Covers c σ.mem (firstsBefore ubatch k) σ.min σ.max ∧
      (k < ubatch.nSeqs → Searching c σ.mem m₀.head σ.nextEmptyCell)) ubatch.nSeqs
    { mem := m₀, nextEmptyCell := findEmpty c m₀ c.size m₀.head, min := c.size - 1, max := 0 } ?_ ?_
  · obtain ⟨σ, hrun, hcl, hcov, -⟩ := hloop
    exact ⟨σ, hrun, hcl, hcov⟩
  · refine ⟨Claimed.start hinv, ⟨?_, ?_, ?_, fun _ => ⟨rfl, rfl⟩⟩, fun _ =>
      searching_findEmpty hinv hhead⟩
    · exact fun s hs => absurd hs not_mem_nil
    · exact fun h => absurd rfl h
    · exact fun h => absurd rfl h
  · rintro k hk σ ⟨hcl, hcov, hsearch⟩
    have hnew : ubatch.first k ∉ firstsBefore ubatch k := by
      rw [mem_firstsBefore]
      rintro ⟨j, hj, heq⟩
      have := hinj j (by omega) k hk heq
      omega
    obtain ⟨σ', hrun, hcl', hcov', hsearch'⟩ :=
      hcl.claim hhead hcov (hsearch hk) (hlt k hk) hnew (k + 1 = ubatch.nSeqs)
    rw [firstsBefore_succ]
    exact ⟨σ', hrun, hcl', hcov', fun hlast => hsearch' (decide_eq_false (by omega))⟩

end Loop

end LlamaCpp.RecurrentMemory
