import LlamaCpp.Kv.Apply
import LlamaCpp.Kv.State

/-!
# What a whole-cache restore reads

The reader of the metadata writes into the cells while it reads.  `takeRecords` reads
the same bytes and only collects them, and `readCells_ok`, `readCells_none` and
`readCells_error` say what the writing reader does in terms of the collecting one: a
complete input installs every record (`install`), an input that is cut leaves the
positions of the records whose header was complete (`headerPositions`).
-/

namespace LlamaCpp.KvCache

open List

open Readers (Reader Input Fault putLE takeLE getLE bind_ok bind_error bind_eq_ok)
open KvCells (Rep Rewrites)

variable {c : KvConfig}

/-! ## Fields -/

/-- A signed value at the head of the input. -/
def i32At (bytes : List UInt8) : Int := toInt32 (getLE (bytes.take 4))

/-- An extra record at the head of the input. -/
def extAt (bytes : List UInt8) : KvCellExt :=
  ⟨i32At bytes, i32At (bytes.drop 4), i32At (bytes.drop 8)⟩

section Fields

variable {σ : Type} {bytes : List UInt8}

theorem takeLE_of_le {k : Nat} (h : k ≤ bytes.length) (st : σ) :
    takeLE k ⟨bytes, st⟩ = .ok (getLE (bytes.take k)) ⟨bytes.drop k, st⟩ := by
  rcases Readers.takeLE_cases k ⟨bytes, st⟩ with ⟨n, hrun, rfl, -⟩ | ⟨-, hlt⟩
  · exact hrun
  · exact absurd hlt (Nat.not_lt_of_le h)

theorem takeLE_of_lt {k : Nat} (h : bytes.length < k) (st : σ) :
    takeLE k ⟨bytes, st⟩ = .error .thrown ⟨bytes, st⟩ := by
  rcases Readers.takeLE_cases k ⟨bytes, st⟩ with ⟨n, -, -, hle⟩ | ⟨hrun, -⟩
  · exact absurd hle (Nat.not_le_of_lt h)
  · exact hrun

theorem takeI32_of_le (h : 4 ≤ bytes.length) (st : σ) : takeI32 ⟨bytes, st⟩ = .ok (i32At bytes) ⟨bytes.drop 4, st⟩ :=
  bind_ok (takeLE_of_le h st)

theorem takeI32_of_lt (h : bytes.length < 4) (st : σ) : takeI32 ⟨bytes, st⟩ = .error .thrown ⟨bytes, st⟩ :=
  bind_error (takeLE_of_lt h st)

theorem takeExt_of_le (h : 12 ≤ bytes.length) (st : σ) :
    takeExt ⟨bytes, st⟩ = .ok (extAt bytes) ⟨bytes.drop 12, st⟩ := by
  unfold takeExt
  rw [bind_ok (takeI32_of_le (by omega) st),
    bind_ok (takeI32_of_le (by rw [length_drop]; omega) st),
    bind_ok (takeI32_of_le (by simp only [length_drop]; omega) st)]
  simp [extAt, drop_drop]

theorem takeExt_of_lt (h : bytes.length < 12) (st : σ) : ∃ rest, takeExt ⟨bytes, st⟩ = .error .thrown ⟨rest, st⟩ := by
  unfold takeExt
  by_cases h4 : 4 ≤ bytes.length
  · rw [bind_ok (takeI32_of_le h4 st)]
    by_cases h8 : 4 ≤ (bytes.drop 4).length
    · rw [bind_ok (takeI32_of_le h8 st)]
      refine ⟨(bytes.drop 4).drop 4, bind_error (takeI32_of_lt ?_ st)⟩
      simp only [length_drop]
      omega
    · exact ⟨_, bind_error (takeI32_of_lt (Nat.lt_of_not_le h8) st)⟩
  · exact ⟨_, bind_error (takeI32_of_lt (Nat.lt_of_not_le h4) st)⟩

end Fields

/-! ## Records -/

/-- The metadata of one saved cell. -/
structure CellRecord where
  pos : Int
  ext : KvCellExt
  ids : List SeqId
deriving DecidableEq

variable (c) in
/-- The sequences of a record; `none` if one of them is out of range. -/
def takeIds : Nat → Reader Unit (Option (List SeqId))
  | 0 => return some []
  | n + 1 => do
      let seqId ← takeI32
      if seqId < 0 ∨ c.nSeqMax ≤ seqId.toNat then return none
      else
        let ids ← takeIds n
        return ids.map (SeqId.ofInt seqId :: ·)

variable (c) in
/-- What follows the position and the number of sequences. -/
def takeBody (pos : Int) (nSeqId : Nat) : Reader Unit (Option CellRecord) := do
  let e ← takeCellExt c
  let ids ← takeIds c nSeqId
  return ids.map (⟨pos, e, ·⟩)

variable (c) in
def takeRecord : Reader Unit (Option CellRecord) := do
  let pos ← takeI32
  let nSeqId ← takeLE 4
  takeBody c pos nSeqId

variable (c) in
/-- `n` records; `none` if one of them is rejected. -/
def takeRecords : Nat → Reader Unit (Option (List CellRecord))
  | 0 => return some []
  | n + 1 => do
      match ← takeRecord c with
      | none => return none
      | some r =>
        let rs ← takeRecords n
        return rs.map (r :: ·)

variable (c) in
/-- The positions of the records whose position and number of sequences are complete, up
to the first record that is cut or rejected. -/
def headerPositions : Nat → List UInt8 → List Int
  | 0, _ => []
  | n + 1, bytes =>
    if bytes.length < 8 then []
    else
      i32At bytes :: match takeRecord c ⟨bytes, ()⟩ with
        | .ok (some _) s => headerPositions n s.bytes
        | _ => []

variable {rest : List UInt8}

variable (c) in
/-- The record goes into cell `i`. -/
def install (i : Nat) (r : CellRecord) (cells : KvCells) : KvCells :=
  r.ids.foldl (fun cells s => cells.seqAdd i s)
    (if 1 < c.nPosPerEmbd then (cells.posSet i r.pos).extSet i r.ext else cells.posSet i r.pos)

/-! ## One cell -/

theorem readIds_ok {n : Nat} {bytes : List UInt8} {ids : List SeqId}
    (h : takeIds c n ⟨bytes, ()⟩ = .ok (some ids) ⟨rest, ()⟩) (i : Nat) (cells : KvCells) :
    readIds c i n ⟨bytes, cells⟩ = .ok true ⟨rest, ids.foldl (fun cells s => cells.seqAdd i s) cells⟩ := by
  induction n generalizing bytes ids cells with
  | zero =>
    obtain ⟨rfl, rfl⟩ : [] = ids ∧ bytes = rest := by simpa [takeIds] using h
    rfl
  | succ n ih =>
    unfold takeIds at h
    unfold readIds
    rcases Nat.lt_or_ge bytes.length 4 with hlt | hle
    · rw [bind_error (takeI32_of_lt hlt ())] at h
      simp at h
    · rw [bind_ok (takeI32_of_le hle ())] at h
      rw [bind_ok (takeI32_of_le hle cells)]
      split at h
      · simp at h
      · rename_i hid
        obtain ⟨ids', s', htail, hmap⟩ := bind_eq_ok.mp h
        rw [if_neg hid]
        cases ids' with
        | none => simp at hmap
        | some ids' =>
          obtain ⟨rfl, rfl⟩ : SeqId.ofInt (i32At bytes) :: ids' = ids ∧ s' = ⟨rest, ()⟩ := by
            simpa using hmap
          exact ih htail _

/-- An identifier out of range or a cut: the positions stay. -/
theorem readIds_fail (n : Nat) (bytes : List UInt8) (i : Nat) (cells : KvCells) :
    (∀ s, takeIds c n ⟨bytes, ()⟩ = .ok none s →
      ∃ s', readIds c i n ⟨bytes, cells⟩ = .ok false s' ∧ s'.st.pos = cells.pos) ∧
    (∀ e s, takeIds c n ⟨bytes, ()⟩ = .error e s →
      e = .thrown ∧ ∃ s', readIds c i n ⟨bytes, cells⟩ = .error .thrown s' ∧ s'.st.pos = cells.pos) := by
  induction n generalizing bytes cells with
  | zero => exact ⟨fun s h => by simp [takeIds] at h, fun e s h => by simp [takeIds] at h⟩
  | succ n ih =>
    unfold takeIds readIds
    rcases Nat.lt_or_ge bytes.length 4 with hlt | hle
    · rw [bind_error (takeI32_of_lt hlt ()), bind_error (takeI32_of_lt hlt cells)]
      refine ⟨fun s h => by simp at h, fun e s h => ?_⟩
      obtain ⟨rfl, -⟩ : Fault.thrown = e ∧ _ := by simpa using h
      exact ⟨rfl, _, rfl, rfl⟩
    · rw [bind_ok (takeI32_of_le hle ()), bind_ok (takeI32_of_le hle cells)]
      split
      · exact ⟨fun s _ => ⟨_, rfl, rfl⟩, fun e s h => by simp at h⟩
      · obtain ⟨hnone, herr⟩ := ih (bytes.drop 4) (cells.seqAdd i (SeqId.ofInt (i32At bytes)))
        constructor
        · intro s h
          obtain ⟨ids', s', htail, hmap⟩ := bind_eq_ok.mp h
          cases ids' with
          | none => exact hnone s' htail
          | some ids' => simp at hmap
        · intro e s h
          rcases Readers.bind_eq_error.mp h with h | ⟨ids', s', -, hmap⟩
          · exact herr e s h
          · simp at hmap

/-- What follows the header of a record, once the position is written. -/
theorem readBody_ok {n : Nat} {bytes : List UInt8} {pos : Int} {r : CellRecord}
    (h : takeBody c pos n ⟨bytes, ()⟩ = .ok (some r) ⟨rest, ()⟩) (i : Nat) (cells : KvCells) :
    r.pos = pos ∧ readBody c i n ⟨bytes, cells.posSet i pos⟩ = .ok true ⟨rest, install c i r cells⟩ := by
  unfold takeBody at h
  obtain ⟨e, s₁, he, h⟩ := bind_eq_ok.mp h
  obtain ⟨ids, s₂, hids, hmap⟩ := bind_eq_ok.mp h
  cases ids with
  | none => simp at hmap
  | some ids =>
    obtain ⟨rfl, rfl⟩ : ⟨pos, e, ids⟩ = r ∧ s₂ = ⟨rest, ()⟩ := by simpa using hmap
    refine ⟨rfl, ?_⟩
    unfold install readBody
    unfold takeCellExt at he
    split
    · rename_i hpos
      rw [if_pos hpos] at he
      rcases Nat.lt_or_ge bytes.length 12 with hlt | hle
      · obtain ⟨_, herr⟩ := takeExt_of_lt hlt ()
        rw [herr] at he
        simp at he
      · rw [takeExt_of_le hle] at he
        obtain ⟨rfl, rfl⟩ : extAt bytes = e ∧ _ = s₁ := by simpa using he
        rw [bind_ok (takeExt_of_le hle _)]
        exact readIds_ok hids i _
    · rename_i hpos
      rw [if_neg hpos] at he
      obtain ⟨rfl, rfl⟩ : {} = e ∧ _ = s₁ := by simpa using he
      exact readIds_ok hids i _

theorem readBody_fail (n : Nat) (bytes : List UInt8) (pos : Int) (i : Nat) (cells : KvCells) :
    (∀ s, takeBody c pos n ⟨bytes, ()⟩ = .ok none s → ∃ s',
      readBody c i n ⟨bytes, cells⟩ = .ok false s' ∧ s'.st.pos = cells.pos) ∧
    (∀ e s, takeBody c pos n ⟨bytes, ()⟩ = .error e s → e = .thrown ∧ ∃ s',
      readBody c i n ⟨bytes, cells⟩ = .error .thrown s' ∧ s'.st.pos = cells.pos) := by
  -- behind the extra record only the sequences can fail
  have htail : ∀ {bytes : List UInt8} (e : KvCellExt) (cells' : KvCells), cells'.pos = cells.pos →
      (∀ s, (takeIds c n >>= fun ids => pure (ids.map (⟨pos, e, ·⟩)) :
          Reader Unit (Option CellRecord)) ⟨bytes, ()⟩ = .ok none s → ∃ s',
          readIds c i n ⟨bytes, cells'⟩ = .ok false s' ∧ s'.st.pos = cells.pos) ∧
      (∀ f s, (takeIds c n >>= fun ids => pure (ids.map (⟨pos, e, ·⟩)) :
          Reader Unit (Option CellRecord)) ⟨bytes, ()⟩ = .error f s → f = .thrown ∧ ∃ s',
          readIds c i n ⟨bytes, cells'⟩ = .error .thrown s' ∧ s'.st.pos = cells.pos) := by
    intro bytes e cells' hcells
    obtain ⟨hnone, herr⟩ := readIds_fail (c := c) n bytes i cells'
    constructor
    · intro s h
      obtain ⟨ids, s', hids, hmap⟩ := bind_eq_ok.mp h
      cases ids with
      | none => exact hcells ▸ hnone s' hids
      | some ids => simp at hmap
    · intro f s h
      rcases Readers.bind_eq_error.mp h with h | ⟨ids, s', -, hmap⟩
      · exact hcells ▸ herr f s h
      · simp at hmap
  unfold takeBody takeCellExt readBody
  by_cases hpos : 1 < c.nPosPerEmbd
  · simp only [if_pos hpos]
    rcases Nat.lt_or_ge bytes.length 12 with hlt | hle
    · obtain ⟨_, herr⟩ := takeExt_of_lt hlt ()
      obtain ⟨_, herr'⟩ := takeExt_of_lt hlt cells
      rw [bind_error herr, bind_error herr']
      refine ⟨fun s h => by simp at h, fun e s h => ?_⟩
      obtain ⟨rfl, -⟩ : Fault.thrown = e ∧ _ := by simpa using h
      exact ⟨rfl, _, rfl, rfl⟩
    · rw [bind_ok (takeExt_of_le hle ()), bind_ok (takeExt_of_le hle cells)]
      exact htail (extAt bytes) (cells.extSet i (extAt bytes)) rfl
  · simp only [if_neg hpos]
    exact htail {} cells rfl

theorem readCell_ok {bytes : List UInt8} {r : CellRecord}
    (h : takeRecord c ⟨bytes, ()⟩ = .ok (some r) ⟨rest, ()⟩) (i : Nat) (cells : KvCells) :
    (8 ≤ bytes.length ∧ r.pos = i32At bytes) ∧
      readCell c i ⟨bytes, cells⟩ = .ok true ⟨rest, install c i r cells⟩ := by
  unfold takeRecord at h
  unfold readCell
  rcases Nat.lt_or_ge bytes.length 4 with hlt | hle
  · rw [bind_error (takeI32_of_lt hlt ())] at h
    simp at h
  · rw [bind_ok (takeI32_of_le hle ())] at h
    rw [bind_ok (takeI32_of_le hle cells)]
    rcases Nat.lt_or_ge (bytes.drop 4).length 4 with hlt₂ | hle₂
    · rw [bind_error (takeLE_of_lt hlt₂ ())] at h
      simp at h
    · rw [bind_ok (takeLE_of_le hle₂ ())] at h
      rw [bind_ok (takeLE_of_le hle₂ cells)]
      obtain ⟨hpos, hrun⟩ := readBody_ok h i cells
      rw [length_drop] at hle₂
      exact ⟨⟨by omega, hpos⟩, hrun⟩

/-- A cell that is cut or rejected keeps its position, or has that of the record. -/
theorem readCell_fail {bytes : List UInt8} (i : Nat) (cells : KvCells) :
    (∀ s, takeRecord c ⟨bytes, ()⟩ = .ok none s → ∃ s', readCell c i ⟨bytes, cells⟩ = .ok false s') ∧
    (∀ e s, takeRecord c ⟨bytes, ()⟩ = .error e s → e = .thrown ∧
      ∃ s', readCell c i ⟨bytes, cells⟩ = .error .thrown s' ∧
        s'.st.pos = if bytes.length < 8 then cells.pos
          else Function.update cells.pos i (i32At bytes)) := by
  unfold takeRecord readCell
  rcases Nat.lt_or_ge bytes.length 4 with hlt | hle
  · rw [bind_error (takeI32_of_lt hlt ()), bind_error (takeI32_of_lt hlt cells)]
    refine ⟨fun s h => by simp at h, fun e s h => ?_⟩
    obtain ⟨rfl, -⟩ : Fault.thrown = e ∧ _ := by simpa using h
    exact ⟨rfl, _, rfl, by rw [if_pos (by omega)]⟩
  · rw [bind_ok (takeI32_of_le hle ()), bind_ok (takeI32_of_le hle cells)]
    rcases Nat.lt_or_ge (bytes.drop 4).length 4 with hlt₂ | hle₂
    · rw [bind_error (takeLE_of_lt hlt₂ ()), bind_error (takeLE_of_lt hlt₂ cells)]
      refine ⟨fun s h => by simp at h, fun e s h => ?_⟩
      obtain ⟨rfl, -⟩ : Fault.thrown = e ∧ _ := by simpa using h
      rw [length_drop] at hlt₂
      exact ⟨rfl, _, rfl, by rw [if_pos (by omega)]⟩
    · rw [bind_ok (takeLE_of_le hle₂ ()), bind_ok (takeLE_of_le hle₂ cells)]
      obtain ⟨hnone, herr⟩ := readBody_fail (c := c) (getLE ((bytes.drop 4).take 4))
        ((bytes.drop 4).drop 4) (i32At bytes) i (cells.posSet i (i32At bytes))
      rw [length_drop] at hle₂
      constructor
      · intro s h
        obtain ⟨s', hrun, -⟩ := hnone s h
        exact ⟨s', hrun⟩
      · intro e s h
        obtain ⟨rfl, s', hrun, hpos⟩ := herr e s h
        exact ⟨rfl, s', hrun, by rw [hpos, if_neg (by omega)]; rfl⟩

/-! ## The loop over the cells -/

theorem readCells_ok {n k : Nat} {bytes : List UInt8} {rs : List CellRecord}
    (h : takeRecords c n ⟨bytes, ()⟩ = .ok (some rs) ⟨rest, ()⟩) (cells : KvCells) :
    rs.length = n ∧ ((List.range' k n).allM (readCell c)) ⟨bytes, cells⟩ =
      .ok true ⟨rest, (rs.zipIdx k).foldl (fun cells x => install c x.2 x.1 cells) cells⟩ := by
  induction n generalizing k bytes rs cells with
  | zero =>
    obtain ⟨rfl, rfl⟩ : [] = rs ∧ bytes = rest := by simpa [takeRecords] using h
    exact ⟨rfl, rfl⟩
  | succ n ih =>
    unfold takeRecords at h
    obtain ⟨r?, ⟨bytes₁, ⟨⟩⟩, hr, h⟩ := bind_eq_ok.mp h
    cases r? with
    | none => simp at h
    | some r =>
      obtain ⟨rs?, ⟨rest', ⟨⟩⟩, hrs, hmap⟩ := bind_eq_ok.mp h
      cases rs? with
      | none => simp at hmap
      | some rs' =>
        obtain ⟨rfl, rfl⟩ : r :: rs' = rs ∧ rest' = rest := by simpa using hmap
        obtain ⟨-, hcell⟩ := readCell_ok hr k cells
        obtain ⟨hlen, hrun⟩ := ih (k := k + 1) hrs (install c k r cells)
        refine ⟨by rw [length_cons, hlen], ?_⟩
        rw [range'_succ, List.allM, bind_ok hcell]
        exact hrun

/-- A record that is rejected ends the loop. -/
theorem readCells_none {n k : Nat} {bytes : List UInt8} {s : Input Unit}
    (h : takeRecords c n ⟨bytes, ()⟩ = .ok none s) (cells : KvCells) :
    ∃ s', ((List.range' k n).allM (readCell c)) ⟨bytes, cells⟩ = .ok false s' := by
  induction n generalizing k bytes cells s with
  | zero => simp [takeRecords] at h
  | succ n ih =>
    unfold takeRecords at h
    obtain ⟨r?, ⟨bytes₁, ⟨⟩⟩, hr, h⟩ := bind_eq_ok.mp h
    rw [range'_succ, List.allM]
    cases r? with
    | none =>
      obtain ⟨s', hcell⟩ := (readCell_fail k cells).1 _ hr
      exact ⟨s', bind_ok hcell⟩
    | some r =>
      obtain ⟨-, hcell⟩ := readCell_ok hr k cells
      rw [bind_ok hcell]
      obtain ⟨rs?, s₁, hrs, hmap⟩ := bind_eq_ok.mp h
      cases rs? with
      | none => exact ih hrs _
      | some rs => simp at hmap

@[simp] theorem install_pos (i : Nat) (r : CellRecord) (cells : KvCells) :
    (install c i r cells).pos = Function.update cells.pos i r.pos := by
  have hids : ∀ (ids : List SeqId) (cells : KvCells),
      (ids.foldl (fun cells s => cells.seqAdd i s) cells).pos = cells.pos := by
    intro ids
    induction ids with
    | nil => exact fun _ => rfl
    | cons s ids ih => exact fun cells => ih _
  unfold install
  rw [hids]
  split <;> rfl

/-- The positions a list writes from index `k` on. -/
def writePos (k : Nat) (ps : List Int) (pos : Nat → Int) (j : Nat) : Int :=
  if k ≤ j ∧ j - k < ps.length then ps.getD (j - k) 0 else pos j

theorem writePos_nil (k : Nat) (pos : Nat → Int) : writePos k [] pos = pos := by
  funext j
  simp [writePos]

theorem writePos_cons (k : Nat) (p : Int) (ps : List Int) (pos : Nat → Int) :
    writePos k (p :: ps) pos = writePos (k + 1) ps (Function.update pos k p) := by
  funext j
  rcases Nat.lt_trichotomy j k with hj | rfl | hj
  · rw [writePos, writePos, if_neg (by omega), if_neg (by omega), Function.update_of_ne (by omega)]
  · simp [writePos]
  · obtain ⟨d, rfl⟩ := Nat.exists_eq_add_of_lt hj
    have h₁ : k + d + 1 - k = d + 1 := by omega
    have h₂ : k + d + 1 - (k + 1) = d := by omega
    simp only [writePos, h₁, h₂, length_cons, getD_cons_succ, Function.update_of_ne (show k + d + 1 ≠ k by omega)]
    by_cases hd : d < ps.length
    · rw [if_pos (by omega), if_pos (by omega)]
    · rw [if_neg (by omega), if_neg (by omega)]

/-- An input that is cut leaves the positions of the complete headers. -/
theorem readCells_error {n k : Nat} {bytes : List UInt8} {e : Fault} {s : Input Unit}
    (h : takeRecords c n ⟨bytes, ()⟩ = .error e s) (cells : KvCells) :
    ∃ s', ((List.range' k n).allM (readCell c)) ⟨bytes, cells⟩ = .error .thrown s' ∧
      s'.st.pos = writePos k (headerPositions c n bytes) cells.pos := by
  induction n generalizing k bytes cells with
  | zero => simp [takeRecords] at h
  | succ n ih =>
    unfold takeRecords at h
    rw [range'_succ, List.allM]
    unfold headerPositions
    rcases Readers.bind_eq_error.mp h with hr | ⟨r?, ⟨bytes₁, ⟨⟩⟩, hr, h⟩
    · obtain ⟨-, s', hcell, hpos⟩ := (readCell_fail k cells).2 e s hr
      refine ⟨s', bind_error hcell, ?_⟩
      rw [hpos, hr]
      split
      · rw [writePos_nil]
      · rw [writePos_cons, writePos_nil]
    · cases r? with
      | none => simp at h
      | some r =>
        obtain ⟨⟨hlen, hrpos⟩, hcell⟩ := readCell_ok hr k cells
        rw [bind_ok hcell, if_neg (by omega), hr]
        rcases Readers.bind_eq_error.mp h with hrs | ⟨rs?, s₁, -, hmap⟩
        · obtain ⟨s', hrun, hpos⟩ := ih (k := k + 1) hrs (install c k r cells)
          refine ⟨s', hrun, ?_⟩
          rw [hpos, writePos_cons, install_pos, hrpos]
        · simp at hmap

/-! ## One stream -/

variable (c) in
def installAll (rs : List CellRecord) (cells : KvCells) : KvCells :=
  rs.zipIdx.foldl (fun cells x => install c x.2 x.1 cells) cells

def wholeSlot (strm n : Nat) : SlotInfo := ⟨strm, strm, [strm], [List.range n]⟩

variable {n : Nat} {bytes : List UInt8}

theorem readMetaAll_of_lt (kv : KvCache) (strm : Nat) (h : (kv.vCells strm).size < n) :
    readMetaAll c strm n ⟨bytes, kv⟩ = .ok none ⟨bytes, kv⟩ := by
  unfold readMetaAll
  rw [bind_ok (Readers.getSt_run _), if_pos h]
  rfl

theorem readMetaAll_ok (kv : KvCache) (strm : Nat) {rs : List CellRecord}
    (hn : n ≤ (kv.vCells strm).size) (h : takeRecords c n ⟨bytes, ()⟩ = .ok (some rs) ⟨rest, ()⟩) :
    readMetaAll c strm n ⟨bytes, kv⟩ = .ok (some (wholeSlot strm n))
      ⟨rest, (kv.setCells strm (installAll c rs (kv.vCells strm))).setHead strm 0⟩ := by
  have hcells := (readCells_ok (k := 0) h (kv.vCells strm)).2
  rw [← range_eq_range'] at hcells
  unfold readMetaAll
  rw [bind_ok (Readers.getSt_run _), if_neg (Nat.not_lt_of_le hn),
    bind_ok (Readers.zoom_ok (s := ⟨bytes, kv⟩) hcells)]
  rfl

theorem readMetaAll_none (kv : KvCache) (strm : Nat) {s : Input Unit} (hn : n ≤ (kv.vCells strm).size)
    (h : takeRecords c n ⟨bytes, ()⟩ = .ok none s) :
    ∃ s', readMetaAll c strm n ⟨bytes, kv⟩ = .ok none s' := by
  obtain ⟨s', hcells⟩ := readCells_none (k := 0) h (kv.vCells strm)
  rw [← range_eq_range'] at hcells
  unfold readMetaAll
  rw [bind_ok (Readers.getSt_run _), if_neg (Nat.not_lt_of_le hn),
    bind_ok (Readers.zoom_ok (s := ⟨bytes, kv⟩) hcells)]
  exact ⟨_, rfl⟩

theorem readMetaAll_error (kv : KvCache) (strm : Nat) {e : Fault} {s : Input Unit} (hn : n ≤ (kv.vCells strm).size)
    (h : takeRecords c n ⟨bytes, ()⟩ = .error e s) :
    ∃ cells rest, readMetaAll c strm n ⟨bytes, kv⟩ = .error .thrown ⟨rest, kv.setCells strm cells⟩ ∧
      cells.pos = writePos 0 (headerPositions c n bytes) (kv.vCells strm).pos := by
  obtain ⟨s', hcells, hpos⟩ := readCells_error (k := 0) h (kv.vCells strm)
  rw [← range_eq_range'] at hcells
  unfold readMetaAll
  rw [bind_ok (Readers.getSt_run _), if_neg (Nat.not_lt_of_le hn),
    bind_error (Readers.zoom_error (s := ⟨bytes, kv⟩) hcells)]
  exact ⟨s'.st, s'.bytes, rfl, hpos⟩

/-! ## The loop over the streams -/

variable {L : KvLayout} {d : Option SeqId} {t : Nat} {σ : KvState}

variable (c) in
/-- A stream is given up: what was restored is removed, and the call throws. -/
def giveUp (d : Option SeqId) : Reader KvState Unit := do
  cleanup c d
  Readers.throwing

theorem giveUp_none (s : Input KvState) : giveUp c none s = .error .thrown ⟨s.bytes, clearAll c s.st⟩ := by
  unfold giveUp cleanup
  rw [bind_ok (Readers.modifySt_run _ s)]
  rfl

theorem readStream_of_lt (h : bytes.length < 4) : readStream c L d t ⟨bytes, σ⟩ = .error .thrown ⟨bytes, σ⟩ :=
  bind_error (takeLE_of_lt h σ)

theorem readStream_zero (h : 4 ≤ bytes.length) (hn : getLE (bytes.take 4) = 0) :
    readStream c L d t ⟨bytes, σ⟩ = .ok () ⟨bytes.drop 4, σ⟩ := by
  unfold readStream
  rw [bind_ok (takeLE_of_le h σ), if_pos hn]
  rfl

section Zoom

variable {α : Type} {a : α} {e : Fault} {s : Input KvState}

theorem onCache_ok {x : Reader KvCache α} {s' : Input KvCache}
    (h : x ⟨s.bytes, s.st.cache⟩ = .ok a s') :
    onCache x s = .ok a ⟨s'.bytes, { s.st with cache := s'.st }⟩ :=
  Readers.zoom_ok h

theorem onCache_error {x : Reader KvCache α} {s' : Input KvCache}
    (h : x ⟨s.bytes, s.st.cache⟩ = .error e s') :
    onCache x s = .error e ⟨s'.bytes, { s.st with cache := s'.st }⟩ :=
  Readers.zoom_error h

theorem onData_ok {x : Reader KvData α} {s' : Input KvData}
    (h : x ⟨s.bytes, s.st.data⟩ = .ok a s') :
    onData x s = .ok a ⟨s'.bytes, { s.st with data := s'.st }⟩ :=
  Readers.zoom_ok h

theorem onData_error {x : Reader KvData α} {s' : Input KvData}
    (h : x ⟨s.bytes, s.st.data⟩ = .error e s') :
    onData x s = .error e ⟨s'.bytes, { s.st with data := s'.st }⟩ :=
  Readers.zoom_error h

end Zoom

/-- Metadata that throws ends the call as it is. -/
theorem readStream_meta_error (h : 4 ≤ bytes.length) (hn : getLE (bytes.take 4) = n) (hne : n ≠ 0)
    {e : Fault} {s : Input KvCache}
    (hmeta : readMeta c d (destStream c d t) n ⟨bytes.drop 4, σ.cache⟩ = .error e s) :
    readStream c L d t ⟨bytes, σ⟩ = .error e ⟨s.bytes, { σ with cache := s.st }⟩ := by
  unfold readStream
  rw [bind_ok (takeLE_of_le h σ), hn, if_neg hne]
  rw [bind_error (onCache_error (s := ⟨bytes.drop 4, σ⟩) hmeta)]

/-- Metadata that is rejected is given up. -/
theorem readStream_meta_none (h : 4 ≤ bytes.length) (hn : getLE (bytes.take 4) = n) (hne : n ≠ 0)
    {s : Input KvCache}
    (hmeta : readMeta c d (destStream c d t) n ⟨bytes.drop 4, σ.cache⟩ = .ok none s) :
    readStream c L d t ⟨bytes, σ⟩ = giveUp c d ⟨s.bytes, { σ with cache := s.st }⟩ := by
  unfold readStream
  rw [bind_ok (takeLE_of_le h σ), hn, if_neg hne]
  rw [bind_ok (onCache_ok (s := ⟨bytes.drop 4, σ⟩) hmeta)]
  rfl

section Data

variable {sinfo : SlotInfo} {s : Input KvCache} (h : 4 ≤ bytes.length)
  (hn : getLE (bytes.take 4) = n) (hne : n ≠ 0)
  (hmeta : readMeta c d (destStream c d t) n ⟨bytes.drop 4, σ.cache⟩ = .ok (some sinfo) s)
  {s' : Input KvData}

include h hn hne hmeta

theorem readStream_data_ok
    (hdata : readData c L (destStream c d t) n sinfo ⟨s.bytes, σ.data⟩ = .ok true s') :
    readStream c L d t ⟨bytes, σ⟩ = .ok () ⟨s'.bytes, ⟨s.st, s'.st⟩⟩ := by
  have hrun : Readers.orFalse (onData (readData c L (destStream c d t) n sinfo))
      ⟨s.bytes, { σ with cache := s.st }⟩ = .ok true ⟨s'.bytes, ⟨s.st, s'.st⟩⟩ :=
    Readers.orFalse_ok (onData_ok (s := ⟨s.bytes, { σ with cache := s.st }⟩) hdata)
  unfold readStream
  rw [bind_ok (takeLE_of_le h σ), hn, if_neg hne]
  rw [bind_ok (onCache_ok (s := ⟨bytes.drop 4, σ⟩) hmeta)]
  dsimp only
  rw [bind_ok hrun]
  rfl

/-- Data that is rejected or cut is given up. -/
theorem readStream_data_fail
    (hdata : readData c L (destStream c d t) n sinfo ⟨s.bytes, σ.data⟩ = .ok false s' ∨
      readData c L (destStream c d t) n sinfo ⟨s.bytes, σ.data⟩ = .error .thrown s') :
    readStream c L d t ⟨bytes, σ⟩ = giveUp c d ⟨s'.bytes, ⟨s.st, s'.st⟩⟩ := by
  have hrun : Readers.orFalse (onData (readData c L (destStream c d t) n sinfo))
      ⟨s.bytes, { σ with cache := s.st }⟩ = .ok false ⟨s'.bytes, ⟨s.st, s'.st⟩⟩ := by
    rcases hdata with hdata | hdata
    · exact Readers.orFalse_ok (onData_ok (s := ⟨s.bytes, { σ with cache := s.st }⟩) hdata)
    · exact Readers.orFalse_thrown (onData_error (s := ⟨s.bytes, { σ with cache := s.st }⟩) hdata)
  unfold readStream
  rw [bind_ok (takeLE_of_le h σ), hn, if_neg hne]
  rw [bind_ok (onCache_ok (s := ⟨bytes.drop 4, σ⟩) hmeta)]
  dsimp only
  rw [bind_ok hrun]
  rfl

theorem readStream_data_abort
    (hdata : readData c L (destStream c d t) n sinfo ⟨s.bytes, σ.data⟩ = .error .abort s') :
    readStream c L d t ⟨bytes, σ⟩ = .error .abort ⟨s'.bytes, ⟨s.st, s'.st⟩⟩ := by
  have hrun : Readers.orFalse (onData (readData c L (destStream c d t) n sinfo))
      ⟨s.bytes, { σ with cache := s.st }⟩ = .error .abort ⟨s'.bytes, ⟨s.st, s'.st⟩⟩ :=
    Readers.orFalse_abort (onData_error (s := ⟨s.bytes, { σ with cache := s.st }⟩) hdata)
  unfold readStream
  rw [bind_ok (takeLE_of_le h σ), hn, if_neg hne]
  rw [bind_ok (onCache_ok (s := ⟨bytes.drop 4, σ⟩) hmeta)]
  dsimp only
  rw [bind_error hrun]

end Data

/-- What `state_read` does behind its checks. -/
theorem stateRead_eq (hsh : c.shared = false) (hd : ∀ s ∈ d, s.val < c.seqToStreamSize)
    (h : 4 ≤ bytes.length) (hn : getLE (bytes.take 4) = c.nStream) :
    stateRead c L d ⟨bytes, σ⟩ = (List.range c.nStream).forM (readStream c L d)
      ⟨bytes.drop 4, if d = none then clearAll c σ else σ⟩ := by
  unfold stateRead
  rw [hsh, if_neg (by simp), if_neg fun ⟨s, hs, hle⟩ => absurd (hd s hs) (Nat.not_lt_of_le hle),
    bind_ok (takeLE_of_le h σ), hn]
  simp only [ne_eq, not_true_eq_false, if_false]
  split
  · rw [bind_ok (Readers.modifySt_run _ _)]
  · rfl

/-- A header that is cut or counts other streams is refused, and nothing is changed. -/
theorem stateRead_refused (hsh : c.shared = false) (hd : ∀ s ∈ d, s.val < c.seqToStreamSize)
    (h : bytes.length < 4 ∨ getLE (bytes.take 4) ≠ c.nStream) :
    ∃ rest, stateRead c L d ⟨bytes, σ⟩ = .error .thrown ⟨rest, σ⟩ := by
  unfold stateRead
  rw [hsh, if_neg (by simp), if_neg fun ⟨s, hs, hle⟩ => absurd (hd s hs) (Nat.not_lt_of_le hle)]
  rcases Nat.lt_or_ge bytes.length 4 with hlt | hle
  · exact ⟨bytes, bind_error (takeLE_of_lt hlt σ)⟩
  · rw [bind_ok (takeLE_of_le hle σ), if_pos (h.resolve_left (Nat.not_lt_of_le hle))]
    exact ⟨bytes.drop 4, rfl⟩

theorem stateRead_header {s : Input KvState} {e : Fault} (hsh : c.shared = false)
    (hd : ∀ s ∈ d, s.val < c.seqToStreamSize)
    (h : bytes.length < 4 ∨ getLE (bytes.take 4) ≠ c.nStream)
    (hrun : stateRead c L d ⟨bytes, σ⟩ = .error e s) : s.st = σ := by
  obtain ⟨rest, hthrow⟩ := stateRead_refused (L := L) (σ := σ) hsh hd h
  obtain ⟨-, rfl⟩ : Fault.thrown = e ∧ ⟨rest, σ⟩ = s := by simpa using hthrow.symm.trans hrun
  rfl

/-- A destination out of range ends the process. -/
theorem stateRead_outOfRange (hsh : c.shared = false) (hd : ∃ s ∈ d, c.seqToStreamSize ≤ s.val) :
    stateRead c L d ⟨bytes, σ⟩ = .error .abort ⟨bytes, σ⟩ := by
  unfold stateRead
  rw [hsh, if_neg (by simp), if_pos hd]
  rfl

@[simp] theorem clear_vCells {kv : KvCache} (ht : t < c.nStream) : (kv.clear c).vCells t = (kv.vCells t).reset := by
  have h : (kv.clear c).vCells t = if t < c.nStream then (kv.vCells t).reset else kv.vCells t :=
    Loops.foldl_range_view (fun (kv : KvCache) t => kv.vCells t) (g := KvCells.reset)
      (fun kv t => ⟨by simp, fun u hu => by simp [hu]⟩) c.nStream t kv
  rw [h, if_pos ht]

/-- A stream of a whole-cache restore that returns: it is empty, or its records are
complete and its data is accepted. -/
theorem readStream_none_ok {s : Input KvState}
    (hrun : readStream c L none t ⟨bytes, σ⟩ = .ok () s) :
    4 ≤ bytes.length ∧ ((getLE (bytes.take 4) = 0 ∧ s = ⟨bytes.drop 4, σ⟩) ∨
      ∃ n rs rest s', getLE (bytes.take 4) = n ∧ n ≠ 0 ∧ n ≤ (σ.cache.vCells t).size ∧
        takeRecords c n ⟨bytes.drop 4, ()⟩ = .ok (some rs) ⟨rest, ()⟩ ∧
        readData c L t n (wholeSlot t n) ⟨rest, σ.data⟩ = .ok true s' ∧
        s = ⟨s'.bytes, ⟨(σ.cache.setCells t (installAll c rs (σ.cache.vCells t))).setHead t 0, s'.st⟩⟩) := by
  rcases Nat.lt_or_ge bytes.length 4 with hlt | hle
  · rw [readStream_of_lt hlt] at hrun
    simp at hrun
  refine ⟨hle, ?_⟩
  generalize hn : getLE (bytes.take 4) = n
  by_cases hne : n = 0
  · rw [readStream_zero hle (hn.trans hne)] at hrun
    exact .inl ⟨hne, by simpa using hrun.symm⟩
  refine .inr ?_
  rcases Nat.lt_or_ge (σ.cache.vCells t).size n with hlt | hsize
  · rw [readStream_meta_none (d := none) hle hn hne (readMetaAll_of_lt _ t hlt), giveUp_none] at hrun
    simp at hrun
  cases hrecs : takeRecords c n ⟨bytes.drop 4, ()⟩ with
  | error e s₁ =>
    obtain ⟨cells, rest, hmeta, -⟩ := readMetaAll_error σ.cache t hsize hrecs
    rw [readStream_meta_error (d := none) hle hn hne hmeta] at hrun
    simp at hrun
  | ok rs? s₁ =>
    cases rs? with
    | none =>
      obtain ⟨s', hmeta⟩ := readMetaAll_none σ.cache t hsize hrecs
      rw [readStream_meta_none (d := none) hle hn hne hmeta, giveUp_none] at hrun
      simp at hrun
    | some rs =>
      obtain ⟨rest, ⟨⟩⟩ := s₁
      have hmeta := readMetaAll_ok σ.cache t hsize hrecs
      cases hdata : readData c L t n (wholeSlot t n) ⟨rest, σ.data⟩ with
      | ok b s' =>
        cases b with
        | true =>
          rw [readStream_data_ok (d := none) hle hn hne hmeta hdata] at hrun
          exact ⟨n, rs, rest, s', rfl, hne, hsize, hrecs, hdata, by simpa using hrun.symm⟩
        | false =>
          rw [readStream_data_fail (d := none) hle hn hne hmeta (.inl hdata), giveUp_none] at hrun
          simp at hrun
      | error e s' =>
        cases e with
        | thrown =>
          rw [readStream_data_fail (d := none) hle hn hne hmeta (.inr hdata), giveUp_none] at hrun
          simp at hrun
        | abort =>
          rw [readStream_data_abort (d := none) hle hn hne hmeta hdata] at hrun
          simp at hrun

end LlamaCpp.KvCache
