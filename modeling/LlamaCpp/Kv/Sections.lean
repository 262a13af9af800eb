import LlamaCpp.Kv.StateFormat
import LlamaCpp.Kv.StateFrame

/-!
# Complete sections of a saved state

`takeSection` reads a section without a cache: the records of every stream, and the bytes
behind the section.  `restoreCells` is what such records do to the cells of a cache, and
`stateRead_of_section` says that a restore of a complete section does just that: what it
does to the cells does not depend on the tensors (`follows_readData`).
-/

namespace LlamaCpp.KvCache

open List Option

open Readers (Reader Input Fault Follows Needs Takes takeLE getLE bind_ok bind_error bind_eq_ok)

variable {c : KvConfig} {L : KvLayout} {kv kv' : KvCache} {d : SeqId}

/-! ## Tensors -/

theorem needs_readTensor (tensor : KvTensor) (offset size : Nat) : Needs (readTensor tensor offset size) size := by
  intro s s' hrun
  obtain ⟨bytes, s₁, htake, -⟩ := bind_eq_ok.mp hrun
  unfold Readers.take at htake
  split at htake
  · assumption
  · simp at htake

theorem needs_readRows (n : Nat) (sinfo : SlotInfo) (tensor : KvTensor) (size : Nat) :
    Needs (readRows n sinfo tensor size) (n * size) := by
  unfold readRows
  split
  · exact needs_readTensor _ _ _
  · have h := Needs.forM (List.range n) (fun i _ => needs_readTensor tensor (sinfo.idx i * size) size)
      fun i _ => takes_readTensor tensor (sinfo.idx i * size) size
    rwa [length_range] at h

theorem needs_readElems (n kvSize : Nat) (sinfo : SlotInfo) (tensor : KvTensor) (size j : Nat) :
    Needs (readElems n kvSize sinfo tensor size j) (n * size) := by
  unfold readElems
  split
  · exact needs_readTensor _ _ _
  · have h := Needs.forM (List.range n)
      (fun i _ => needs_readTensor tensor (elemOffset kvSize size j (sinfo.idx i)) size)
      fun i _ => takes_readTensor tensor (elemOffset kvSize size j (sinfo.idx i)) size
    rwa [length_range] at h

section Slots

variable (n : Nat) (sinfo sinfo' : SlotInfo) {t t' : Nat}

theorem follows_readRow (kind : KvTensorKind) (layer : Nat) (row : KvRow) :
    Follows (readRow n sinfo ⟨kind, layer, t⟩ row) (readRow n sinfo' ⟨kind, layer, t'⟩ row) :=
  .expectLE _ _ (.expectLE _ _ ((Takes.follows (needs_readRows n sinfo _ _) (takes_readRows n sinfo _ _)
    (takes_readRows n sinfo' _ _)).bind fun _ => Readers.follows_pure true))

theorem follows_readKeyIdx (layer : KvLayer × Nat) :
    Follows (readKeyIdx t n sinfo layer) (readKeyIdx t' n sinfo' layer) := by
  unfold readKeyIdx
  split
  · exact .expectLE _ _ (Readers.follows_pure true)
  · exact .expectLE _ _ (follows_readRow n sinfo sinfo' _ _ _)

theorem follows_readValue (layer : KvLayer × Nat) :
    Follows (readValue t n sinfo layer) (readValue t' n sinfo' layer) := by
  unfold readValue
  split
  · exact Readers.follows_pure true
  · exact follows_readRow n sinfo sinfo' _ _ _

theorem follows_readValueTrans (kvSize : Nat) (layer : KvLayer × Nat) :
    Follows (readValueTrans kvSize t n sinfo layer) (readValueTrans kvSize t' n sinfo' layer) := by
  unfold readValueTrans
  split
  · exact Readers.follows_pure true
  · refine .expectLE _ _ (.expectLE _ _ (.expectLE _ _ ?_))
    exact (Follows.forM _ fun j _ => Takes.follows (needs_readElems n kvSize sinfo _ _ j)
      (takes_readElems n kvSize sinfo _ _ j) (takes_readElems n kvSize sinfo' _ _ j)).bind fun _ =>
      Readers.follows_pure true

/-- The data of a stream takes the same bytes into any slot of any stream. -/
theorem follows_readData : Follows (readData c L t n sinfo) (readData c L t' n sinfo') := by
  refine (Readers.follows_takeLE 4).bind fun _ => (Readers.follows_takeLE 4).bind fun _ =>
    .ite (Readers.follows_pure _) (.ite (Readers.follows_pure _) (.ite (Readers.follows_pure _) ?_))
  refine .both (.allM _ fun _ _ => follows_readRow n sinfo sinfo' _ _ _) (.both (.ite ?_ (Readers.follows_pure _))
    (.ite ?_ ?_))
  · exact .expectLE _ _ (.allM _ fun _ _ => follows_readKeyIdx n sinfo sinfo' _)
  · exact .allM _ fun _ _ => follows_readValueTrans n sinfo sinfo' _ _
  · exact .allM _ fun _ _ => follows_readValue n sinfo sinfo' _

end Slots

/-! ## The records of a section -/

variable (c) in
/-- The metadata of the cells of a stream: for one sequence, the destination is what their
sequence will be. -/
def takeMeta (dest : Option SeqId) (n : Nat) : Reader Unit (Option (List CellRecord)) :=
  match dest with
  | none => takeRecords c n
  | some d => do
      let cells ← readSeqCells c n
      return cells.map fun cells => cells.map fun x => ⟨x.1, x.2, [d]⟩

variable (c L) in
/-- The streams `ts`: their records, and the bytes behind them. -/
def takeStreams (dest : Option SeqId) : List Nat → List UInt8 → Option (List (List CellRecord) × List UInt8)
  | [], bytes => some ([], bytes)
  | t :: ts, bytes =>
    match takeLE 4 ⟨bytes, ()⟩ with
    | .error _ _ => none
    | .ok n s =>
      if n = 0 then (takeStreams dest ts s.bytes).map fun x => ([] :: x.1, x.2)
      else
        match takeMeta c dest n s with
        | .ok (some rs) s₁ =>
          match readData c L t n (wholeSlot t n) ⟨s₁.bytes, fun _ _ => 0⟩ with
          | .ok true s₂ => (takeStreams dest ts s₂.bytes).map fun x => (rs :: x.1, x.2)
          | _ => none
        | _ => none

variable (c L) in
/-- A complete section: the records of every stream, and the bytes behind it. -/
def takeSection (dest : Option SeqId) (bytes : List UInt8) :
    Option (List (List CellRecord) × List UInt8) :=
  if 4 ≤ bytes.length ∧ getLE (bytes.take 4) = c.nStream then
    takeStreams c L dest (List.range c.nStream) (bytes.drop 4)
  else none

/-! ## What the records do to the cells -/

variable (c) in
/-- The records of a stream; `none` if there is no room for them. -/
def restoreStream (dest : Option SeqId) (kv : KvCache) (x : Nat × List CellRecord) : Option KvCache :=
  if x.2 = [] then some kv
  else
    match dest with
    | none =>
      if (kv.vCells x.1).size < x.2.length then none
      else some ((kv.setCells x.1 (installAll c x.2 (kv.vCells x.1))).setHead x.1 0)
    | some d =>
      let cells := x.2.map fun r => (r.pos, r.ext)
      let kv₀ := dropped c kv d
      (kv₀.findSlot c (restoreUbatch c d cells) false).bind fun sinfo =>
        if sinfo.isEmpty then none
        else
          (kv₀.applyUbatch c sinfo (restoreUbatch c d cells)).bind fun kv' =>
            if placedOk (kv'.vCells (c.seqToStream d)) sinfo d (cells.map Prod.fst) then some kv'
            else none

variable (c) in
def restoreCells (dest : Option SeqId) (kv : KvCache) (rss : List (List CellRecord)) : Option KvCache :=
  ((List.range c.nStream).zip rss).foldlM (restoreStream c dest) (if dest = none then kv.clear c else kv)

section Stream

variable {dest : Option SeqId} {n t : Nat} {bytes : List UInt8} {s : Input Unit} {rs : List CellRecord}

theorem takeRecords_length (h : takeRecords c n ⟨bytes, ()⟩ = .ok (some rs) s) : rs.length = n := by
  obtain ⟨rest, ⟨⟩⟩ := s
  exact (readCells_ok (k := 0) h .empty).1

end Stream

theorem follows_takeI32 {σ τ : Type} : Follows (takeI32 : Reader σ Int) (takeI32 : Reader τ Int) :=
  (Readers.follows_takeLE 4).bind fun _ => Readers.follows_pure _

theorem follows_takeCellExt {σ τ : Type} :
    Follows (takeCellExt c : Reader σ KvCellExt) (takeCellExt c : Reader τ KvCellExt) :=
  .ite (follows_takeI32.bind fun _ => follows_takeI32.bind fun _ => follows_takeI32.bind fun _ =>
    Readers.follows_pure _) (Readers.follows_pure _)

theorem follows_readSeqCells {σ τ : Type} (n : Nat) :
    Follows (readSeqCells c n : Reader σ (Option (List (Int × KvCellExt))))
      (readSeqCells c n : Reader τ (Option (List (Int × KvCellExt)))) := by
  induction n with
  | zero => exact Readers.follows_pure _
  | succ n ih =>
    exact follows_takeI32.bind fun _ => (Readers.follows_takeLE 4).bind fun _ =>
      .ite (Readers.follows_pure _) (follows_takeCellExt.bind fun _ => follows_takeI32.bind fun _ =>
        ih.bind fun _ => Readers.follows_pure _)

theorem readSeqCells_ok {n : Nat} {bytes : List UInt8} {s : Input Unit} {cells : List (Int × KvCellExt)}
    (h : readSeqCells c n ⟨bytes, ()⟩ = .ok (some cells) s) (kv : KvCache) :
    readSeqCells c n ⟨bytes, kv⟩ = .ok (some cells) ⟨s.bytes, kv⟩ := by
  obtain ⟨kv', hrun⟩ := follows_readSeqCells n bytes () kv _ _ h
  have hst : kv' = kv := (quiet_readSeqCells n).ok hrun
  rw [hrun, hst]

/-! ## Restoring a complete section -/

section Restore

variable {dest : Option SeqId} {n t : Nat} {bytes rest : List UInt8} {s : Input Unit}
  {rs : List CellRecord} {rss : List (List CellRecord)}

theorem takeMeta_ne_nil (h : takeMeta c dest n ⟨bytes, ()⟩ = .ok (some rs) s) (hn : n ≠ 0) : rs ≠ [] := by
  have hlen : rs.length = n := by
    cases dest with
    | none => exact takeRecords_length h
    | some d =>
      obtain ⟨cells?, s₁, hcells, hmap⟩ := bind_eq_ok.mp h
      cases cells? with
      | none => simp at hmap
      | some cells =>
        obtain ⟨rfl, -⟩ : cells.map (fun x => (⟨x.1, x.2, [d]⟩ : CellRecord)) = rs ∧ s₁ = s := by
          simpa using hmap
        rw [length_map, length_of_readSeqCells hcells]
  rintro rfl
  exact hn hlen.symm

theorem readMeta_of_records (hsh : c.shared = false) (hd : ∀ d ∈ dest, d.val < c.seqToStreamSize)
    (h : takeMeta c dest n ⟨bytes, ()⟩ = .ok (some rs) s) (hne : rs ≠ [])
    (hrestore : restoreStream c dest kv (t, rs) = some kv') :
    ∃ sinfo, readMeta c dest (destStream c dest t) n ⟨bytes, kv⟩ = .ok (some sinfo) ⟨s.bytes, kv'⟩ := by
  unfold restoreStream at hrestore
  rw [if_neg hne] at hrestore
  cases dest with
  | none =>
    obtain ⟨rest, ⟨⟩⟩ := s
    obtain ⟨hroom, hkv⟩ := ite_none_left_eq_some.mp hrestore
    obtain rfl := some.inj hkv
    rw [takeRecords_length h] at hroom
    exact ⟨_, readMetaAll_ok kv t (Nat.le_of_not_lt hroom) h⟩
  | some d =>
    obtain ⟨cells?, s₁, hcells, hmap⟩ := bind_eq_ok.mp h
    cases cells? with
    | none => simp at hmap
    | some cells =>
      obtain ⟨rfl, rfl⟩ : cells.map (fun x => (⟨x.1, x.2, [d]⟩ : CellRecord)) = rs ∧ s₁ = s := by
        simpa using hmap
      have hback : (cells.map fun x => (⟨x.1, x.2, [d]⟩ : CellRecord)).map (fun r => (r.pos, r.ext)) = cells := by
        rw [List.map_map]
        exact List.map_id _
      rw [hback] at hrestore
      obtain ⟨sinfo, hfind, hplace⟩ := bind_eq_some_iff.mp hrestore
      obtain ⟨hroom, hplace⟩ := ite_none_left_eq_some.mp hplace
      obtain ⟨kv₁, happly, hplaced⟩ := bind_eq_some_iff.mp hplace
      obtain ⟨hok, hkv⟩ := ite_none_right_eq_some.mp hplaced
      obtain rfl := some.inj hkv
      refine ⟨sinfo, ?_⟩
      unfold readMeta readMetaSeq
      dsimp only
      rw [bind_ok (dropSeq_run hsh (hd d rfl) _), bind_ok (readSeqCells_ok hcells _)]
      dsimp only
      rw [bind_ok (Readers.getSt_run _)]
      simp only [hfind, happly, if_neg hroom]
      rw [bind_ok (Readers.setSt_run kv₁ _), show destStream c (some d) t = c.seqToStream d from rfl, if_pos hok]
      rfl

theorem readStreams_of_section (hsh : c.shared = false) (hd : ∀ d ∈ dest, d.val < c.seqToStreamSize)
    {ts : List Nat} (h : takeStreams c L dest ts bytes = some (rss, rest))
    (hrestore : (ts.zip rss).foldlM (restoreStream c dest) kv = some kv') (data : KvData) :
    ∃ data', ts.forM (readStream c L dest) ⟨bytes, ⟨kv, data⟩⟩ = .ok () ⟨rest, ⟨kv', data'⟩⟩ := by
  induction ts generalizing bytes kv data rss with
  | nil =>
    obtain ⟨rfl, rfl⟩ : [] = rss ∧ bytes = rest := by simpa [takeStreams] using h
    obtain rfl : kv = kv' := by simpa using hrestore
    exact ⟨data, rfl⟩
  | cons t ts ih =>
    unfold takeStreams at h
    rcases Nat.lt_or_ge bytes.length 4 with hlt | hle
    · rw [takeLE_of_lt hlt] at h
      simp at h
    rw [takeLE_of_le hle] at h
    dsimp only at h
    generalize hn : getLE (bytes.take 4) = n at h
    split at h
    · rename_i hzero
      obtain ⟨⟨rss', rest'⟩, htail, heq⟩ := map_eq_some_iff.mp h
      obtain ⟨rfl, rfl⟩ : [] :: rss' = rss ∧ rest' = rest := by simpa using heq
      rw [zip_cons_cons, foldlM_cons] at hrestore
      obtain ⟨kv₁, hone, hrestore⟩ := bind_eq_some_iff.mp hrestore
      obtain rfl : kv = kv₁ := by simpa [restoreStream] using hone
      obtain ⟨data', hrun⟩ := ih htail hrestore data
      exact ⟨data', (bind_ok (readStream_zero hle (hn.trans hzero))).trans hrun⟩
    · rename_i hne
      split at h
      · rename_i rs s₁ hmeta
        split at h
        · rename_i s₂ hdata
          obtain ⟨⟨rss', rest'⟩, htail, heq⟩ := map_eq_some_iff.mp h
          obtain ⟨rfl, rfl⟩ : rs :: rss' = rss ∧ rest' = rest := by simpa using heq
          rw [zip_cons_cons, foldlM_cons] at hrestore
          obtain ⟨kv₁, hone, hrestore⟩ := bind_eq_some_iff.mp hrestore
          obtain ⟨sinfo, hrun⟩ := readMeta_of_records hsh hd hmeta (takeMeta_ne_nil hmeta hne) hone
          obtain ⟨data₁, hdata'⟩ := follows_readData n (wholeSlot t n) sinfo _ _ data _ _ hdata
          obtain ⟨data', hrest⟩ := ih htail hrestore data₁
          exact ⟨data', (bind_ok (readStream_data_ok hle hn hne hrun hdata')).trans hrest⟩
        · simp at h
      · simp at h

/-- A complete section is restored: the cells are those of its records. -/
theorem stateRead_of_section (hsh : c.shared = false) (hd : ∀ d ∈ dest, d.val < c.seqToStreamSize)
    (h : takeSection c L dest bytes = some (rss, rest)) (hrestore : restoreCells c dest kv rss = some kv')
    (data : KvData) :
    ∃ data', stateRead c L dest ⟨bytes, ⟨kv, data⟩⟩ = .ok () ⟨rest, ⟨kv', data'⟩⟩ := by
  obtain ⟨⟨hle, hn⟩, h⟩ := ite_none_right_eq_some.mp h
  rw [stateRead_eq hsh hd hle hn]
  unfold restoreCells at hrestore
  split at hrestore
  · rename_i hnone
    rw [if_pos hnone]
    exact readStreams_of_section hsh hd h hrestore _
  · rename_i hsome
    rw [if_neg hsome]
    exact readStreams_of_section hsh hd h hrestore data

end Restore

end LlamaCpp.KvCache
