import LlamaCpp.Kv.CacheRuns
import LlamaCpp.Kv.StateRead

/-!
# The cell tables that a whole-cache restore installs

`install` feeds a record to mutators that trust their arguments.  `rep_installAll_iff`
says that the table is well kept exactly if every record has a position and names no
sequence twice, and `stateRead_rep_iff` says the same of the whole input, whose
records are collected by `inputRecords`.
-/

namespace LlamaCpp.KvCache

open List

open Readers (Reader Input Fault putLE takeLE bind_ok bind_error bind_eq_ok)
open KvCells (Rep Rewrites)

variable {c : KvConfig}

/-- The cell can be used: it has a position, and no sequence is named twice. -/
def CellRecord.Ok (r : CellRecord) : Prop := 0 ≤ r.pos ∧ r.ids.Nodup

instance (r : CellRecord) : Decidable r.Ok := inferInstanceAs (Decidable (_ ∧ _))

/-! ## One record -/

theorem install_size (i : Nat) (r : CellRecord) (cells : KvCells) : (install c i r cells).size = cells.size := by
  unfold install
  rw [foldl_seqAdd_size]
  split <;> rfl

theorem rewrites_install (i : Nat) (r : CellRecord) (cells : KvCells) :
    Rewrites i
      (fun x => ⟨r.pos, if 1 < c.nPosPerEmbd then r.ext else x.ext, x.shift, x.seq ∪ r.ids.toFinset⟩)
      cells (install c i r cells) := by
  have hset := KvCells.rewrites_posSet cells i r.pos
  unfold install
  split
  · exact (hset.trans (KvCells.rewrites_extSet _ i r.ext)).trans (rewrites_foldl_seqAdd r.ids _ i)
  · exact hset.trans (rewrites_foldl_seqAdd r.ids _ i)

theorem rep_install {i : Nat} {r : CellRecord} {cells : KvCells} (h : Rep cells)
    (hi : i < cells.size) (hempty : cells.pos i = -1) (hr : r.Ok) : Rep (install c i r cells) := by
  have hset := KvCells.rep_posSet h hi hempty hr.1
  have hseq : ∀ s ∈ r.ids, s ∉ cells.seq i := by
    intro s _
    rw [h.seq_empty i hi hempty]
    exact Finset.notMem_empty s
  have hpos : r.pos ≠ -1 := by
    have := hr.1
    omega
  unfold install
  split
  · exact rep_foldl_seqAdd (KvCells.rep_extSet hset i r.ext) hi (by simpa using hpos) hr.2 hseq
  · exact rep_foldl_seqAdd hset hi (by simpa using hpos) hr.2 hseq

theorem install_used (i : Nat) (r : CellRecord) (cells : KvCells) :
    (install c i r cells).used = insert i cells.used := by
  have hids : ∀ (ids : List SeqId) (cells : KvCells),
      (ids.foldl (fun cells s => cells.seqAdd i s) cells).used = cells.used := by
    intro ids
    induction ids with
    | nil => exact fun _ => rfl
    | cons s ids ih => exact fun cells => ih _
  unfold install
  rw [hids]
  split <;> rfl

/-- A sequence that is named twice is counted twice. -/
theorem install_represents {i : Nat} {r : CellRecord} {cells : KvCells} {s : SeqId} {f : Int → Nat}
    (h : (cells.seqPos s).Represents f) :
    ((install c i r cells).seqPos s).Represents
      fun p => f p + if r.pos = p then r.ids.count s else 0 := by
  have hids : ∀ (ids : List SeqId) (cells : KvCells) (f : Int → Nat), cells.pos i = r.pos →
      (cells.seqPos s).Represents f →
      ((ids.foldl (fun cells s => cells.seqAdd i s) cells).seqPos s).Represents
        fun p => f p + if r.pos = p then ids.count s else 0 := by
    intro ids
    induction ids with
    | nil => exact fun cells f _ h => h.congr fun p => by simp
    | cons t ids ih =>
      intro cells f hpos h
      have hone : ((cells.seqAdd i t).seqPos s).Represents
          fun p => f p + if s = t ∧ p = r.pos then 1 else 0 :=
        KvCells.seqPosInc_represents h fun p => by rw [hpos]
      refine (ih (cells.seqAdd i t) _ hpos hone).congr fun p => ?_
      rw [count_cons]
      by_cases hp : r.pos = p
      · subst hp
        by_cases hs : s = t
        · subst hs
          simp
          omega
        · simp [hs, Ne.symm hs]
      · simp [hp, Ne.symm hp]
  unfold install
  split
  · exact hids _ _ f (by simp) h
  · exact hids _ _ f (by simp) h

/-! ## All records -/

section InstallFrom

variable {k : Nat} {rs : List CellRecord} {cells : KvCells} {i : Nat}

/-- The cells from `k` on are still blank, and there is room for the records. -/
structure Room (k n : Nat) (cells : KvCells) : Prop where
  fits : k + n ≤ cells.size
  blank : ∀ j, k ≤ j → cells.cell j = .blank

theorem Room.install {n : Nat} (h : Room k (n + 1) cells) (r : CellRecord) :
    Room (k + 1) n (install c k r cells) where
  fits := by
    rw [install_size]
    have := h.fits
    omega
  blank := by
    intro j hj
    rw [(rewrites_install k r cells).elsewhere j (by omega)]
    exact h.blank j (by omega)

theorem Room.pos {n : Nat} (h : Room k n cells) : cells.pos k = -1 :=
  congrArg KvCell.pos (h.blank k le_rfl)

/-- The cell of a record, written over a blank one. -/
theorem Room.install_cell {n : Nat} (h : Room k n cells) (r : CellRecord) :
    (KvCache.install c k r cells).cell k = ⟨r.pos, if 1 < c.nPosPerEmbd then r.ext else {}, 0, r.ids.toFinset⟩ := by
  rw [(rewrites_install k r cells).here, h.blank k le_rfl]
  simp [KvCell.blank]

theorem rep_installFrom (hroom : Room k rs.length cells) (h : Rep cells) (hrs : ∀ r ∈ rs, r.Ok) :
    Rep ((rs.zipIdx k).foldl (fun cells x => install c x.2 x.1 cells) cells) := by
  induction rs generalizing k cells with
  | nil => exact h
  | cons r rs ih =>
    have hk : k < cells.size := by
      have := hroom.fits
      rw [length_cons] at this
      omega
    exact ih (hroom.install r) (rep_install h hk hroom.pos (hrs r mem_cons_self))
      fun r' hr' => hrs r' (mem_cons_of_mem _ hr')

theorem installFrom_size (rs : List CellRecord) (k : Nat) (cells : KvCells) :
    ((rs.zipIdx k).foldl (fun cells x => install c x.2 x.1 cells) cells).size = cells.size := by
  induction rs generalizing k cells with
  | nil => rfl
  | cons r rs ih => exact (ih (k + 1) _).trans (install_size k r cells)

/-- A cell that has been passed keeps its content. -/
theorem installFrom_cell_of_lt (rs : List CellRecord) (cells : KvCells) (hi : i < k) :
    ((rs.zipIdx k).foldl (fun cells x => install c x.2 x.1 cells) cells).cell i = cells.cell i := by
  induction rs generalizing k cells with
  | nil => rfl
  | cons r rs ih =>
    have hstep := (rewrites_install (c := c) k r cells).elsewhere i (by omega)
    exact (ih (k := k + 1) (install c k r cells) (by omega)).trans hstep

theorem installFrom_used (hroom : Room k rs.length cells) (hi : i < rs.length) :
    k + i ∈ ((rs.zipIdx k).foldl (fun cells x => install c x.2 x.1 cells) cells).used := by
  have hkeep : ∀ (rs : List CellRecord) (k j : Nat) (cells : KvCells), j ∈ cells.used →
      j ∈ ((rs.zipIdx k).foldl (fun cells x => install c x.2 x.1 cells) cells).used := by
    intro rs
    induction rs with
    | nil => exact fun _ _ _ h => h
    | cons r rs ih =>
      exact fun k j cells h => ih (k + 1) j _ (by rw [install_used]; exact Finset.mem_insert_of_mem h)
  induction rs generalizing k cells i with
  | nil => simp at hi
  | cons r rs ih =>
    cases i with
    | zero =>
      exact hkeep rs (k + 1) k _ (by rw [install_used]; exact Finset.mem_insert_self k _)
    | succ i =>
      have := ih (hroom.install (c := c) r) (Nat.lt_of_succ_lt_succ hi)
      rwa [show k + 1 + i = k + (i + 1) by omega] at this

theorem installFrom_cell (hroom : Room k rs.length cells) (hi : i < rs.length) :
    ((rs.zipIdx k).foldl (fun cells x => install c x.2 x.1 cells) cells).cell (k + i) =
      ⟨rs[i].pos, if 1 < c.nPosPerEmbd then rs[i].ext else {}, 0, rs[i].ids.toFinset⟩ := by
  induction rs generalizing k cells i with
  | nil => simp at hi
  | cons r rs ih =>
    cases i with
    | zero =>
      exact (installFrom_cell_of_lt (k := k + 1) rs (install c k r cells) (Nat.lt_succ_self k)).trans
        (hroom.install_cell r)
    | succ i =>
      have := ih (hroom.install (c := c) r) (Nat.lt_of_succ_lt_succ hi)
      rwa [show k + 1 + i = k + (i + 1) by omega] at this

/-- The cells behind the records stay blank. -/
theorem installFrom_cell_of_ge (hroom : Room k rs.length cells) (hi : k + rs.length ≤ i) :
    ((rs.zipIdx k).foldl (fun cells x => install c x.2 x.1 cells) cells).cell i = .blank := by
  induction rs generalizing k cells with
  | nil => exact hroom.blank i hi
  | cons r rs ih =>
    rw [length_cons] at hi
    exact ih (hroom.install (c := c) r) (by omega)

/-- The position index counts names, the table counts cells. -/
theorem installFrom_counts (hroom : Room k rs.length cells) {s : SeqId} {f : Int → Nat}
    (h : (cells.seqPos s).Represents f) :
    (((rs.zipIdx k).foldl (fun cells x => install c x.2 x.1 cells) cells).seqPos s).Represents
        (fun p => f p + (rs.map fun r => if r.pos = p then r.ids.count s else 0).sum) ∧
      ∀ p, ((rs.zipIdx k).foldl (fun cells x => install c x.2 x.1 cells) cells).cellCount s p =
        cells.cellCount s p + (rs.map fun r => if s ∈ r.ids ∧ r.pos = p then 1 else 0).sum := by
  induction rs generalizing k cells f with
  | nil => exact ⟨h.congr fun p => by simp, fun p => by simp⟩
  | cons r rs ih =>
    have hk : k < cells.size := by
      have := hroom.fits
      rw [length_cons] at this
      omega
    obtain ⟨hidx, hcount⟩ := ih (hroom.install r) (install_represents (c := c) (i := k) (r := r) h)
    refine ⟨hidx.congr fun p => ?_, fun p => ?_⟩
    · rw [map_cons, sum_cons]
      omega
    · refine (hcount p).trans ?_
      have hrw := rewrites_install (c := c) k r cells
      have hcell := KvCells.cellCount_rewrite (install_size (c := c) k r cells) hk
        (fun j hj => congrArg KvCell.seq (hrw.elsewhere j hj))
        (fun j hj => congrArg KvCell.pos (hrw.elsewhere j hj)) s p
      have hnew := hroom.install_cell (c := c) r
      have hseq : (install c k r cells).seq k = r.ids.toFinset := congrArg KvCell.seq hnew
      have hpos : (install c k r cells).pos k = r.pos := congrArg KvCell.pos hnew
      have hold : cells.seq k = ∅ := congrArg KvCell.seq (hroom.blank k le_rfl)
      simp only [KvCells.occ, hold, hseq, hpos, Finset.notMem_empty, false_and, if_false,
        List.mem_toFinset, Nat.add_zero] at hcell
      rw [hcell, map_cons, sum_cons]
      omega

end InstallFrom

theorem room_reset (cells : KvCells) {n : Nat} (hn : n ≤ cells.size) : Room 0 n cells.reset where
  fits := by simpa using hn
  blank := fun _ _ => rfl

/-- Filling a cleared table makes a well kept one exactly if every record can be used. -/
theorem rep_installAll_iff {cells : KvCells} {rs : List CellRecord} (hn : rs.length ≤ cells.size) :
    Rep (installAll c rs cells.reset) ↔ ∀ r ∈ rs, r.Ok := by
  have hroom := room_reset cells hn
  constructor
  · intro h r hr
    obtain ⟨i, hi, rfl⟩ := mem_iff_getElem.mp hr
    have hcell := installFrom_cell (c := c) hroom hi
    have hused := installFrom_used (c := c) hroom hi
    rw [Nat.zero_add] at hcell hused
    have hpos : (installAll c rs cells.reset).pos i = rs[i].pos := congrArg KvCell.pos hcell
    have hlt := (h.used_iff i).mp hused
    refine ⟨hpos ▸ h.pos_nonneg hlt.1 hlt.2, nodup_iff_count_le_one.mpr fun s => ?_⟩
    -- every record adds as many names as cells, at every position
    have hblank : ∀ j < cells.reset.size, cells.reset.seq j = ∅ := fun _ _ => rfl
    obtain ⟨hidx, hcount⟩ := installFrom_counts (c := c) (s := s) hroom CountMap.represents_empty
    have heq := hidx.unique (h.seqPos s) rs[i].pos
    have hcount := hcount rs[i].pos
    rw [KvCells.cellCount_of_blank hblank] at hcount
    have hsum := heq.trans hcount
    rw [Nat.zero_add, Nat.zero_add] at hsum
    by_contra hmany
    refine absurd hsum.symm (Nat.ne_of_lt (sum_lt_sum _ _ (fun r _ => ?_) ⟨rs[i], hr, ?_⟩))
    · by_cases hp : r.pos = rs[i].pos <;> by_cases hs : s ∈ r.ids <;> simp [hp, hs]
    · rw [if_pos rfl]
      split <;> omega
  · exact rep_installFrom hroom (KvCells.rep_reset cells)

/-! ## The whole input -/

variable {L : KvLayout}

variable (c L) in
/-- The records of the streams `ts` that are complete, in the order they are read. -/
def inputRecords : List Nat → Input KvData → List CellRecord
  | [], _ => []
  | t :: ts, s =>
    match takeLE 4 s with
    | .error _ _ => []
    | .ok n s₁ =>
      if n = 0 then inputRecords ts s₁
      else
        match takeRecords c n ⟨s₁.bytes, ()⟩ with
        | .ok (some rs) s₂ =>
          rs ++ match readData c L t n (wholeSlot t n) ⟨s₂.bytes, s₁.st⟩ with
            | .ok _ s₃ => inputRecords ts s₃
            | .error _ _ => []
        | _ => []

/-- The streams that are read into cleared tables, one after the other. -/
theorem readStreams_rep {ts : List Nat} (hnd : ts.Nodup) {bytes : List UInt8} {σ : KvState}
    {s : Input KvState}
    (hreset : ∀ t ∈ ts, ∃ cells : KvCells, σ.cache.vCells t = cells.reset)
    (hrun : ts.forM (readStream c L none) ⟨bytes, σ⟩ = .ok () s) :
    ((∀ t ∈ ts, Rep (s.st.cache.vCells t)) ↔ ∀ r ∈ inputRecords c L ts ⟨bytes, σ.data⟩, r.Ok) ∧
      ∀ t ∉ ts, s.st.cache.vCells t = σ.cache.vCells t := by
  induction ts generalizing bytes σ with
  | nil =>
    obtain rfl : ⟨bytes, σ⟩ = s := by simpa using hrun
    exact ⟨by simp [inputRecords], fun _ _ => rfl⟩
  | cons t ts ih =>
    rw [nodup_cons] at hnd
    obtain ⟨⟨⟩, ⟨bytes₁, σ₁⟩, hone, hrest⟩ := bind_eq_ok.mp hrun
    obtain ⟨hle, hcases⟩ := readStream_none_ok hone
    obtain ⟨cells, hcells⟩ := hreset t mem_cons_self
    unfold inputRecords
    rw [takeLE_of_le hle σ.data]
    dsimp only
    rcases hcases with ⟨hn, heq⟩ | ⟨n, rs, rest, s', hn, hne, hsize, hrecs, hdata, heq⟩
    · obtain ⟨rfl, rfl⟩ := Input.mk.inj heq
      rw [if_pos hn]
      obtain ⟨hiff, hother⟩ := ih hnd.2 (fun u hu => hreset u (mem_cons_of_mem _ hu)) hrest
      refine ⟨⟨fun h => hiff.mp fun u hu => h u (mem_cons_of_mem _ hu), fun h u hu => ?_⟩,
        fun u hu => hother u fun h => hu (mem_cons_of_mem _ h)⟩
      rcases mem_cons.mp hu with rfl | hu
      · rw [hother u hnd.1, hcells]
        exact KvCells.rep_reset cells
      · exact hiff.mpr h u hu
    · obtain ⟨rfl, rfl⟩ := Input.mk.inj heq
      rw [hn, if_neg hne, hrecs]
      dsimp only
      rw [hdata]
      have hne_of_mem : ∀ u ∈ ts, u ≠ t := fun u hu h => hnd.1 (h ▸ hu)
      obtain ⟨hiff, hother⟩ := ih hnd.2 (fun u hu => by
        obtain ⟨cells', hcells'⟩ := hreset u (mem_cons_of_mem _ hu)
        exact ⟨cells', by simp [hne_of_mem u hu, hcells']⟩) hrest
      -- the table of this stream is not touched any more
      have htable : s.st.cache.vCells t = installAll c rs cells.reset := by
        rw [hother t hnd.1, ← hcells]
        simp
      have hlen : rs.length ≤ cells.size := by
        rw [(readCells_ok (k := 0) hrecs (σ.cache.vCells t)).1]
        rwa [hcells] at hsize
      have hhead := rep_installAll_iff (c := c) hlen
      rw [forall_mem_cons, forall_mem_append, htable, hhead, hiff]
      refine ⟨Iff.rfl, fun u hu => ?_⟩
      rw [mem_cons, not_or] at hu
      rw [hother u hu.2]
      simp [hu.1]

/-- A whole-cache restore that returns leaves well kept tables exactly if every record of
the input can be used. -/
theorem stateRead_rep_iff (hsh : c.shared = false) {bytes : List UInt8} {σ : KvState}
    {s : Input KvState} (hrun : stateRead c L none ⟨bytes, σ⟩ = .ok () s) :
    (∀ t < c.nStream, Rep (s.st.cache.vCells t)) ↔
      ∀ r ∈ inputRecords c L (List.range c.nStream) ⟨bytes.drop 4, fun _ _ => 0⟩, r.Ok := by
  obtain ⟨hle, hn⟩ : 4 ≤ bytes.length ∧ Readers.getLE (bytes.take 4) = c.nStream := by
    unfold stateRead at hrun
    rw [hsh, if_neg (by simp), if_neg (by simp)] at hrun
    rcases Nat.lt_or_ge bytes.length 4 with hlt | hle
    · rw [bind_error (takeLE_of_lt hlt σ)] at hrun
      simp at hrun
    · rw [bind_ok (takeLE_of_le hle σ)] at hrun
      by_contra hn
      rw [if_pos fun h => hn ⟨hle, h⟩] at hrun
      simp at hrun
  rw [stateRead_eq hsh (by simp) hle hn, if_pos rfl] at hrun
  have h := (readStreams_rep (L := L) nodup_range (σ := clearAll c σ) (fun t ht =>
    ⟨σ.cache.vCells t, clear_vCells (mem_range.mp ht)⟩) hrun).1
  simp only [mem_range] at h
  exact h

/-- A cache without layers: its saved states are metadata only. -/
def noLayers : KvLayout := ⟨false, [], by decide⟩

/-- A saved state of one stream with one cell at position `p`, which belongs to sequence `0`. -/
def oneCellState (p : Int) : List UInt8 :=
  putLE 4 1 ++ (putLE 4 1 ++ (putI32 p ++ putLE 4 1 ++ putI32 0) ++ (putLE 4 0 ++ putLE 4 0))

theorem stateRead_rep_one : ∃ s, stateRead (unifiedConfig 1 .none) noLayers none
      ⟨oneCellState 7, ⟨init (unifiedConfig 1 .none), fun _ _ => 0⟩⟩ = .ok () s ∧
    ∀ t < 1, Rep (s.st.cache.vCells t) := by
  have hfinal : (Readers.final? (stateRead (unifiedConfig 1 .none) noLayers none)
      ⟨oneCellState 7, ⟨init (unifiedConfig 1 .none), fun _ _ => 0⟩⟩).isSome = true := by
    decide +kernel
  obtain ⟨st, hst⟩ := Option.isSome_iff_exists.mp hfinal
  obtain ⟨⟨⟩, rest, hrun⟩ := Readers.final?_eq_some.mp hst
  exact ⟨⟨rest, st⟩, hrun, (stateRead_rep_iff rfl hrun).mpr (by decide +kernel)⟩

/-- A position below `-1` is installed as it is. -/
theorem stateRead_negative_pos :
    ¬∀ (c : KvConfig) (L : KvLayout) (bytes : List UInt8) (σ : KvState) (s : Input KvState),
      c.shared = false → stateRead c L none ⟨bytes, σ⟩ = .ok () s →
      ∀ t < c.nStream, Rep (s.st.cache.vCells t) := by
  intro h
  have hfinal : (Readers.final? (stateRead (unifiedConfig 1 .none) noLayers none)
      ⟨oneCellState (-5), ⟨init (unifiedConfig 1 .none), fun _ _ => 0⟩⟩).map
        (fun σ => ((σ.cache.vCells 0).size, (σ.cache.vCells 0).pos 0)) = some (1, -5) := by
    decide +kernel
  obtain ⟨st, hst, heq⟩ := Option.map_eq_some_iff.mp hfinal
  obtain ⟨hsize, hpos⟩ := Prod.mk.inj heq
  obtain ⟨⟨⟩, rest, hrun⟩ := Readers.final?_eq_some.mp hst
  have hrep := h _ _ _ _ ⟨rest, st⟩ rfl hrun 0 (by decide)
  have hge := hrep.pos_ge 0 (by rw [hsize]; exact Nat.zero_lt_one)
  rw [hpos] at hge
  exact absurd hge (by decide)

end LlamaCpp.KvCache
