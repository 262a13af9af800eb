import LlamaCpp.Gguf.Written

/-!
# Reading back the tensors

The descriptions of the tensors are read back when their shapes and types pass the tests of the reader
(`ShapeOk`, `TypeOk`).  The data section is written without a failed assertion, and the reader computes
the size that was written.
-/

namespace LlamaCpp.GgufReader

open List Option

open Readers (bind_eq_ok bind_ok putLE getLE putLE_length)

/-! ## Shapes and types -/

/-- The shape passes the tests of the reader. -/
structure ShapeOk (ne : Dims) : Prop where
  ne0 : 0 ≤ ne.ne0
  ne1 : 0 < ne.ne1
  ne2 : 0 < ne.ne2
  ne3 : 0 < ne.ne3
  rows : ne.ne0 < int64Max / ne.ne1
  planes : ne.ne0 * ne.ne1 < int64Max / ne.ne2
  cubes : ne.ne0 * ne.ne1 * ne.ne2 < int64Max / ne.ne3

/-- The type passes the tests of the reader. -/
structure TypeOk (type : Nat) (ne : Dims) : Prop where
  type_lt : type < ggmlTypeCount
  blck : ggmlBlckSize type ≠ 0
  row : ne.ne0 % ggmlBlckSize type = 0
  blocks : elements ne / ggmlBlckSize type ≤ ((sizeLimit - 1 : Nat) : Int) / ggmlTypeSize type

section Shape

variable {ne : Dims} {s s' : GgufReader}

/-- A number that is not above a quotient of a bound is a divisor below the bound. -/
theorem le_int64Max {a b : Int} (ha : 0 ≤ a) (h : a < int64Max / b) : b ≤ int64Max := by
  rcases Int.lt_or_le int64Max b with hlt | hle
  · rw [Int.ediv_eq_zero_of_lt (by decide) hlt] at h
    omega
  · exact hle

theorem ShapeOk.bounds (h : ShapeOk ne) :
    ne.ne0 ≤ int64Max ∧ ne.ne1 ≤ int64Max ∧ ne.ne2 ≤ int64Max ∧ ne.ne3 ≤ int64Max := by
  have hrows := Int.mul_nonneg h.ne0 (Int.le_of_lt h.ne1)
  have hplanes := Int.mul_nonneg hrows (Int.le_of_lt h.ne2)
  exact ⟨Int.le_trans (le_mul_of_one_le_right h.ne0 h.ne1) (mul_le_int64Max (Int.le_of_lt h.ne1) h.rows),
    le_int64Max h.ne0 h.rows, le_int64Max hrows h.planes, le_int64Max hplanes h.cubes⟩

theorem ShapeOk.products (h : ShapeOk ne) : 0 ≤ ne.ne0 * ne.ne1 ∧ ne.ne0 * ne.ne1 ≤ int64Max ∧
    0 ≤ ne.ne0 * ne.ne1 * ne.ne2 ∧ ne.ne0 * ne.ne1 * ne.ne2 ≤ int64Max ∧
    0 ≤ elements ne ∧ elements ne ≤ int64Max := by
  have hrows := Int.mul_nonneg h.ne0 (Int.le_of_lt h.ne1)
  have hplanes := Int.mul_nonneg hrows (Int.le_of_lt h.ne2)
  exact ⟨hrows, mul_le_int64Max (Int.le_of_lt h.ne1) h.rows, hplanes,
    mul_le_int64Max (Int.le_of_lt h.ne2) h.planes, Int.mul_nonneg hplanes (Int.le_of_lt h.ne3),
    mul_le_int64Max (Int.le_of_lt h.ne3) h.cubes⟩

theorem mulI64_ok {a b : Int} (h0 : 0 ≤ a * b) (hle : a * b ≤ int64Max) : mulI64 a b s = .ok (a * b) s :=
  mulI64_eq_ok.mpr ⟨⟨by omega, hle⟩, rfl, rfl⟩

theorem divI64_ok {a b : Int} (hb : b ≠ 0) : divI64 a b s = .ok (a / b) s := divI64_eq_ok.mpr ⟨hb, rfl, rfl⟩

theorem ShapeOk.checkDims (h : ShapeOk ne) : checkDims ne s = .ok () s := by
  obtain ⟨hrows, hrowsLe, hplanes, hplanesLe, -, -⟩ := h.products
  unfold GgufReader.checkDims
  rw [bind_ok (divI64_ok (Int.ne_of_gt h.ne1)), bind_ok (reject_ok (Int.not_le.mpr h.rows)),
    bind_ok (mulI64_ok hrows hrowsLe), bind_ok (divI64_ok (Int.ne_of_gt h.ne2)),
    bind_ok (reject_ok (Int.not_le.mpr h.planes)), bind_ok (mulI64_ok hplanes hplanesLe),
    bind_ok (divI64_ok (Int.ne_of_gt h.ne3))]
  exact reject_ok (Int.not_le.mpr h.cubes)

/-- The shape of a tensor that was read has passed the tests. -/
theorem shapeOk_of_checkDims (h0 : 0 ≤ ne.ne0) (h1 : 0 ≤ ne.ne1) (h2 : 0 ≤ ne.ne2) (h3 : 0 ≤ ne.ne3)
    (h : checkDims ne s = .ok () s') : ShapeOk ne := by
  obtain ⟨hpos1, hpos2, hpos3, -, -⟩ := checkDims_ok h1 h2 h3 h
  unfold checkDims at h
  obtain ⟨q1, s1, hq1, h⟩ := bind_eq_ok.mp h
  obtain ⟨-, rfl, -⟩ := divI64_eq_ok.mp hq1
  obtain ⟨_, s2, hr, h⟩ := bind_eq_ok.mp h
  obtain ⟨hlt1, -⟩ := reject_eq_ok.mp hr
  obtain ⟨rows, s3, hm, h⟩ := bind_eq_ok.mp h
  obtain ⟨-, rfl, -⟩ := mulI64_eq_ok.mp hm
  obtain ⟨q2, s4, hq2, h⟩ := bind_eq_ok.mp h
  obtain ⟨-, rfl, -⟩ := divI64_eq_ok.mp hq2
  obtain ⟨_, s5, hr, h⟩ := bind_eq_ok.mp h
  obtain ⟨hlt2, -⟩ := reject_eq_ok.mp hr
  obtain ⟨planes, s6, hm, h⟩ := bind_eq_ok.mp h
  obtain ⟨-, rfl, -⟩ := mulI64_eq_ok.mp hm
  obtain ⟨q3, s7, hq3, h⟩ := bind_eq_ok.mp h
  obtain ⟨-, rfl, -⟩ := divI64_eq_ok.mp hq3
  obtain ⟨hlt3, -⟩ := reject_eq_ok.mp h
  exact ⟨h0, hpos1, hpos2, hpos3, Int.not_le.mp hlt1, Int.not_le.mp hlt2, Int.not_le.mp hlt3⟩

theorem TypeOk.checkType {type : Nat} (h : TypeOk type ne) (hshape : ShapeOk ne) :
    checkType type ne s = .ok type s := by
  obtain ⟨hrows, hrowsLe, hplanes, hplanesLe, hall, hallLe⟩ := hshape.products
  have hblck : (ggmlBlckSize type : Int) ≠ 0 := by exact_mod_cast h.blck
  have hsize : (ggmlTypeSize type : Int) ≠ 0 := by exact_mod_cast Nat.ne_of_gt (typeSize_pos h.blck)
  have hn : nelements ne s = .ok (elements ne) s := by
    unfold nelements
    rw [bind_ok (mulI64_ok hrows hrowsLe), bind_ok (mulI64_ok hplanes hplanesLe)]
    exact mulI64_ok hall hallLe
  have htype : (type : Int) < ggmlTypeCount := by exact_mod_cast h.type_lt
  unfold GgufReader.checkType
  rw [bind_ok (reject_ok (by omega)), Int.toNat_natCast, bind_ok (reject_ok ?_), bind_ok hn,
    bind_ok (divI64_ok hblck), bind_ok (divI64_ok hsize), bind_ok (reject_ok (Int.not_lt.mpr h.blocks))]
  · rfl
  · rintro (hzero | hrow)
    · exact h.blck hzero
    · exact hrow h.row

theorem typeOk_of_checkType {code : Int} {type : Nat} (h : checkType code ne s = .ok type s') : TypeOk type ne := by
  unfold checkType at h
  obtain ⟨_, s1, hr, h⟩ := bind_eq_ok.mp h
  obtain ⟨hcode, -⟩ := reject_eq_ok.mp hr
  obtain ⟨_, s2, hr, h⟩ := bind_eq_ok.mp h
  obtain ⟨hrow, -⟩ := reject_eq_ok.mp hr
  obtain ⟨n, s3, hn, h⟩ := bind_eq_ok.mp h
  obtain ⟨rfl, -⟩ := nelements_ok hn
  obtain ⟨blocks, s4, hb, h⟩ := bind_eq_ok.mp h
  obtain ⟨hblck, rfl, -⟩ := divI64_eq_ok.mp hb
  obtain ⟨limit, s5, hl, h⟩ := bind_eq_ok.mp h
  obtain ⟨-, rfl, -⟩ := divI64_eq_ok.mp hl
  obtain ⟨_, s6, hr, h⟩ := bind_eq_ok.mp h
  obtain ⟨hle, -⟩ := reject_eq_ok.mp hr
  obtain ⟨rfl, -⟩ := pure_eq_ok.mp h
  rw [not_or, not_not] at hrow
  exact ⟨by omega, hrow.1, hrow.2, Int.not_lt.mp hle⟩

end Shape

/-! ## Tensors -/

def readBack (ti : GgufTensorInfo) : GgufTensorInfo :=
  { name := ti.name, type := ti.type, ne := ti.ne, nb := .of ti.type ti.ne, offset := ti.offset }

section Tensors

variable {bytes : List UInt8} {maxChunk : Nat} (hlimit : bytes.length < sizeLimit) (hchunk : 1 ≤ maxChunk)
  {infos : List GgufTensorInfo}
include hlimit hchunk

theorem reads_readDim {nDims j : Nat} {n : Int} (h0 : 0 ≤ n) (hn : n ≤ int64Max) (hone : nDims ≤ j → n = 1) :
    Reads bytes (readDim (ofBytes bytes) maxChunk nDims j) (if j < nDims then putI64 n else []) n := by
  have hne : Reads bytes (readNe (ofBytes bytes) maxChunk nDims j) (if j < nDims then putI64 n else []) n := by
    unfold readNe
    split
    · exact reads_readI64 hlimit hchunk h0 hn
    · next hj =>
      rw [hone (Nat.not_lt.mp hj)]
      exact reads_pure 1
  exact hne.last (Reads.test (Int.not_lt.mpr h0) (reads_pure n))

theorem reads_readDims {ne : Dims} (h : ShapeOk ne) :
    Reads bytes (readDims (ofBytes bytes) maxChunk)
      (putLE 4 (ggmlNDims ne) ++ (ne.toList.take (ggmlNDims ne)).flatMap putI64) ne := by
  obtain ⟨hb0, hb1, hb2, hb3⟩ := h.bounds
  obtain ⟨h0, h1, h2, h3, -, -, -⟩ := h
  -- the dimensions that are left out are 1
  have hdims : 1 ≤ ggmlNDims ne ∧ ggmlNDims ne ≤ 4 ∧ (ggmlNDims ne ≤ 1 → ne.ne1 = 1) ∧
      (ggmlNDims ne ≤ 2 → ne.ne2 = 1) ∧ (ggmlNDims ne ≤ 3 → ne.ne3 = 1) := by
    unfold ggmlNDims
    split
    · omega
    · split
      · omega
      · split <;> omega
  obtain ⟨hone, hfour, hne1, hne2, hne3⟩ := hdims
  have hlist : (ne.toList.take (ggmlNDims ne)).flatMap putI64 =
      (if 0 < ggmlNDims ne then putI64 ne.ne0 else []) ++ ((if 1 < ggmlNDims ne then putI64 ne.ne1 else []) ++
        ((if 2 < ggmlNDims ne then putI64 ne.ne2 else []) ++ (if 3 < ggmlNDims ne then putI64 ne.ne3 else []))) := by
    generalize ggmlNDims ne = k at hone hfour
    have hk : k = 1 ∨ k = 2 ∨ k = 3 ∨ k = 4 := by omega
    rcases hk with rfl | rfl | rfl | rfl <;> simp [Dims.toList]
  rw [hlist]
  unfold readDims
  refine (reads_readLE hlimit hchunk (by omega)).bind (Reads.test (by omega) ?_)
  refine (reads_readDim hlimit hchunk h0 hb0 (by omega)).bind ?_
  refine (reads_readDim hlimit hchunk (Int.le_of_lt h1) hb1 hne1).bind ?_
  refine (reads_readDim hlimit hchunk (Int.le_of_lt h2) hb2 hne2).bind ?_
  exact (reads_readDim hlimit hchunk (Int.le_of_lt h3) hb3 hne3).map

theorem reads_readName {name : List UInt8} (hlen : name.length < ggmlMaxName) (hcstr : 0 ∉ name)
    (hnew : name ∉ infos.map (·.name)) :
    Reads bytes (readName (ofBytes bytes) maxChunk infos) (putString name) name := by
  have hany : ¬(infos.any fun ti => ti.name = cstr name) := by
    rw [cstr_of_notMem hcstr]
    intro h
    obtain ⟨ti, hti, heq⟩ := List.any_eq_true.mp h
    exact hnew (List.mem_map.mpr ⟨ti, hti, of_decide_eq_true heq⟩)
  have hcut : Reads bytes (pure (cstr name)) [] name := by
    rw [cstr_of_notMem hcstr]
    exact reads_pure name
  exact (reads_readString hlimit hchunk (Nat.le_trans (Nat.le_of_lt hlen) (by decide))).last
    (Reads.test (Nat.not_le.mpr hlen) (Reads.test hany hcut))

theorem reads_readTensorInfo {ti : GgufTensorInfo} (hlen : ti.name.length < ggmlMaxName)
    (hcstr : 0 ∉ ti.name) (hnew : ti.name ∉ infos.map (·.name)) (hshape : ShapeOk ti.ne)
    (htype : TypeOk ti.type ti.ne) (hoff : ti.offset < sizeLimit) :
    Reads bytes (readTensorInfo (ofBytes bytes) maxChunk infos) ti.writeMeta (readBack ti) := by
  have hsigned : toSigned 32 ti.type = ti.type := by
    have hlt : ti.type < 43 := htype.type_lt
    exact Int.bmod_eq_of_le (by omega) (by omega)
  have hcheck : Reads bytes (checkType (toSigned 32 ti.type) ti.ne) [] ti.type := fun s rest hat => by
    rw [hsigned]
    exact ⟨s, htype.checkType hshape, hat⟩
  have hdims : Reads bytes (checkDims ti.ne) [] () := fun s rest hat => ⟨s, hshape.checkDims, hat⟩
  unfold readTensorInfo GgufTensorInfo.writeMeta
  rw [append_assoc, append_assoc, append_assoc, ← append_assoc (putLE 4 _)]
  refine (reads_readName hlimit hchunk hlen hcstr hnew).bind ((reads_readDims hlimit hchunk hshape).bind ?_)
  refine hdims.bind ((reads_readLE hlimit hchunk ?_).bind (hcheck.bind ((reads_readLE hlimit hchunk hoff).map)))
  exact Nat.lt_trans htype.type_lt (by decide)

theorem reads_readInfos {done : List GgufTensorInfo}
    (hname : ∀ name ∈ infos.map (·.name), name.length < ggmlMaxName ∧ 0 ∉ name)
    (hnames : (done.map (·.name) ++ infos.map (·.name)).Nodup) (hshape : ∀ ti ∈ infos, ShapeOk ti.ne)
    (htype : ∀ ti ∈ infos, TypeOk ti.type ti.ne) (hoff : ∀ ti ∈ infos, ti.offset < sizeLimit) :
    Reads bytes (readInfos (ofBytes bytes) maxChunk infos.length done)
      (infos.flatMap GgufTensorInfo.writeMeta) (done ++ infos.map readBack) := by
  induction infos generalizing done with
  | nil =>
    rw [map_nil, append_nil]
    exact reads_pure done
  | cons ti infos ih =>
    obtain ⟨hlen, hcstr⟩ := hname ti.name (List.mem_map_of_mem mem_cons_self)
    have hnew : ti.name ∉ done.map (·.name) := fun hmem =>
      (nodup_append.mp hnames).2.2 ti.name hmem ti.name mem_cons_self rfl
    have hread := reads_readTensorInfo hlimit hchunk hlen hcstr hnew (hshape ti mem_cons_self)
      (htype ti mem_cons_self) (hoff ti mem_cons_self)
    have hrest := @ih (done ++ [readBack ti]) (fun name h => hname name (mem_cons_of_mem _ h))
      (by simpa [readBack] using hnames) (fun t ht => hshape t (mem_cons_of_mem ti ht))
      (fun t ht => htype t (mem_cons_of_mem ti ht)) (fun t ht => hoff t (mem_cons_of_mem ti ht))
    rw [append_assoc] at hrest
    exact hread.bind hrest

end Tensors

/-! ## Sizes -/

def kvSize (kv : GgufKv) : Nat :=
  8 + kv.key.length + (if kv.isArray then 16 else 4) +
    ((kv.dataString.map fun s => 8 + s.length).sum + kv.data.length)

def tensorMetaSize (ti : GgufTensorInfo) : Nat := 8 + ti.name.length + 4 + 8 * ggmlNDims ti.ne + 12

/-- The size of the header, the pairs and the descriptions of the tensors. -/
def metaSize (ctx : GgufContext) : Nat :=
  24 + (ctx.kv.map kvSize).sum + (ctx.info.map tensorMetaSize).sum

def dataBytes (infos : List GgufTensorInfo) : Nat :=
  (infos.map fun ti => padUp ti.nbytes ggufDefaultAlignment).sum

def fileSize (ctx : GgufContext) : Nat :=
  padUp (metaSize ctx) ggufDefaultAlignment + dataBytes ctx.info

open GgufContext (pad Chained writeTensorData offsetBehind)

theorem pad_length (bytes : List UInt8) :
    (pad ggufDefaultAlignment bytes).length = padUp bytes.length ggufDefaultAlignment := by
  unfold pad padUp
  rw [length_append, length_replicate]
  simp only [ggufDefaultAlignment]
  omega

variable {bytes : List UInt8} {ti : GgufTensorInfo} {infos : List GgufTensorInfo} {start : Nat}

/-- What is in front of a multiple of the alignment does not matter. -/
theorem pad_append {front : List UInt8} (h : ggufDefaultAlignment ∣ front.length) :
    pad ggufDefaultAlignment (front ++ bytes) = front ++ pad ggufDefaultAlignment bytes := by
  have hmod : (front ++ bytes).length % ggufDefaultAlignment = bytes.length % ggufDefaultAlignment := by
    rw [length_append, Nat.add_mod, Nat.mod_eq_zero_of_dvd h, Nat.zero_add, Nat.mod_mod]
  unfold pad
  rw [hmod, append_assoc]

theorem ggmlPad_default {x : Nat} (h : padUp x ggufDefaultAlignment < sizeLimit) :
    ggmlPad x ggufDefaultAlignment = padUp x ggufDefaultAlignment := by
  have hle := le_padUp x (n := ggufDefaultAlignment) (by decide)
  refine (ggmlPad_eq_iff (n := ggufDefaultAlignment) ⟨5, rfl⟩ (by decide) (Nat.lt_of_le_of_lt hle h)).2.mpr ?_
  have hdvd := dvd_padUp x ggufDefaultAlignment
  simp only [ggufDefaultAlignment, sizeLimit] at *
  omega

theorem putI64_length (n : Int) : (putI64 n).length = 8 := putLE_length ..

theorem writeMeta_length (ti : GgufTensorInfo) : ti.writeMeta.length = tensorMetaSize ti := by
  have hdims : ∀ l : List Int, (l.flatMap putI64).length = 8 * l.length := by
    intro l
    induction l with
    | nil => rfl
    | cons n l ih =>
      rw [flatMap_cons, length_append, putI64_length, ih, length_cons]
      omega
  have hfour : ggmlNDims ti.ne ≤ 4 := by
    unfold ggmlNDims
    split
    · omega
    · split
      · omega
      · split <;> omega
  unfold GgufTensorInfo.writeMeta tensorMetaSize putString
  simp only [length_append, putLE_length, hdims, length_take]
  simp only [Dims.toList, length_cons, length_nil]
  omega

theorem write_length {kv : GgufKv} {out : List UInt8} (hmade : kv.Made) (hfits : KvFits kv)
    (h : kv.write = some out) : out.length = kvSize kv := by
  obtain ⟨ne, -, hwrite⟩ := write_made hmade hfits.bools
  rw [hwrite] at h
  obtain rfl := some.inj h
  have hstrings : ∀ l : List (List UInt8), (l.flatMap putString).length = (l.map fun s => 8 + s.length).sum := by
    intro l
    rw [List.length_flatMap]
    simp [putString, putLE_length]
  have htype : (typeBytes kv ne).length = if kv.isArray then 16 else 4 := by
    unfold typeBytes
    split <;> simp [putLE_length]
  simp only [length_append, putString, putLE_length, htype]
  rw [← length_append]
  simp only [length_append, hstrings, kvSize]

/-! ## The data section -/

def contents (ti : GgufTensorInfo) : List UInt8 := (ti.data.getD []).take ti.nbytes

structure Present (ti : GgufTensorInfo) : Prop where
  contiguous : ggmlIsContiguous ti.type ti.ne ti.nb
  data : ∃ data, ti.data = some data ∧ ti.nbytes ≤ data.length

theorem Present.length (h : Present ti) : (contents ti).length = ti.nbytes := by
  obtain ⟨data, hdata, hle⟩ := h.data
  rw [contents, hdata, getD_some, length_take, Nat.min_eq_left hle]

def sections (infos : List GgufTensorInfo) : List UInt8 :=
  infos.flatMap fun ti => pad ggufDefaultAlignment (contents ti)

theorem sections_length (h : ∀ ti ∈ infos, Present ti) : (sections infos).length = dataBytes infos := by
  induction infos with
  | nil => rfl
  | cons ti infos ih =>
    have hrest := ih fun t ht => h t (mem_cons_of_mem ti ht)
    unfold sections dataBytes at *
    rw [flatMap_cons, length_append, pad_length, (h ti mem_cons_self).length, hrest, map_cons, sum_cons]

/-- The offset behind a tensor, where nothing wraps. -/
theorem offsetBehind_eq (hoff : ti.offset = start)
    (h : start + padUp ti.nbytes ggufDefaultAlignment < sizeLimit) :
    offsetBehind ggufDefaultAlignment ti = start + padUp ti.nbytes ggufDefaultAlignment := by
  unfold offsetBehind
  rw [hoff, ggmlPad_default (Nat.lt_of_le_of_lt (Nat.le_add_left _ _) h), Nat.mod_eq_of_lt h]

/-- The tensors of a built context and the data behind them. -/
structure Section (start : Nat) (infos : List GgufTensorInfo) : Prop where
  chained : Chained ggufDefaultAlignment start infos
  aligned : ggufDefaultAlignment ∣ start
  fits : start + dataBytes infos < sizeLimit

theorem dataBytes_cons (ti : GgufTensorInfo) (infos : List GgufTensorInfo) :
    dataBytes (ti :: infos) = padUp ti.nbytes ggufDefaultAlignment + dataBytes infos := by
  simp [dataBytes]

theorem Section.tail (h : Section start (ti :: infos)) : ti.offset = start ∧
      start + padUp ti.nbytes ggufDefaultAlignment < sizeLimit ∧
      Section (start + padUp ti.nbytes ggufDefaultAlignment) infos := by
  obtain ⟨⟨hoff, hchain⟩, hstart, hfits⟩ := h
  rw [dataBytes_cons] at hfits
  have hlt : start + padUp ti.nbytes ggufDefaultAlignment < sizeLimit := by omega
  rw [offsetBehind_eq hoff hlt] at hchain
  exact ⟨hoff, hlt, hchain, Nat.dvd_add hstart (dvd_padUp _ _), by omega⟩

theorem Section.offset_lt (h : Section start infos) : ∀ ti ∈ infos, ti.offset < sizeLimit := by
  induction infos generalizing start with
  | nil => exact fun _ hti => absurd hti not_mem_nil
  | cons ti infos ih =>
    obtain ⟨hoff, hlt, hrest⟩ := h.tail
    intro t ht
    rcases mem_cons.mp ht with rfl | ht
    · omega
    · exact ih hrest t ht

/-- The assertion of `write_tensor_data` holds for one tensor after the other. -/
theorem writeData_ok {offsetData : Nat} (h : Section start infos) (hpresent : ∀ ti ∈ infos, Present ti)
    (hblck : ∀ ti ∈ infos, ggmlBlckSize ti.type ≠ 0) (hoff : ggufDefaultAlignment ∣ offsetData)
    (hlen : bytes.length = offsetData + start) :
    infos.foldlM (writeTensorData offsetData ggufDefaultAlignment) bytes = some (bytes ++ sections infos) := by
  induction infos generalizing bytes start with
  | nil => simp [sections]
  | cons ti infos ih =>
    obtain ⟨hti, -, hrest⟩ := h.tail
    have hhere := hpresent ti mem_cons_self
    obtain ⟨data, hdata, hle⟩ := hhere.data
    have hcontents : data.take ti.nbytes = contents ti := by rw [contents, hdata, getD_some]
    have hone : writeTensorData offsetData ggufDefaultAlignment bytes ti =
        some (bytes ++ pad ggufDefaultAlignment (contents ti)) := by
      unfold writeTensorData
      rw [if_pos ⟨by omega, hblck ti mem_cons_self, hhere.contiguous⟩, hdata, bind_some,
        if_pos hle, hcontents, pad_append (hlen ▸ Nat.dvd_add hoff h.aligned)]
    rw [foldlM_cons, hone, bind_eq_bind, bind_some,
      ih hrest (fun t ht => hpresent t (mem_cons_of_mem ti ht))
        (fun t ht => hblck t (mem_cons_of_mem ti ht))]
    · rw [append_assoc]
      rfl
    · rw [length_append, pad_length, hhere.length]
      omega

/-- What was written, if it was. -/
theorem writeData_length {out : List UInt8} {offsetData : Nat}
    (halign : ggufDefaultAlignment ∣ bytes.length)
    (h : infos.foldlM (writeTensorData offsetData ggufDefaultAlignment) bytes = some out) :
    out.length = bytes.length + dataBytes infos := by
  induction infos generalizing bytes with
  | nil =>
    obtain rfl := some.inj h
    rfl
  | cons ti infos ih =>
    rw [foldlM_cons] at h
    obtain ⟨mid, hone, hrest⟩ := bind_eq_some_iff.mp h
    obtain ⟨-, hone⟩ := ite_none_right_eq_some.mp hone
    obtain ⟨data, -, hone⟩ := bind_eq_some_iff.mp hone
    obtain ⟨hle, hone⟩ := ite_none_right_eq_some.mp hone
    obtain rfl := some.inj hone
    have hmid : (pad ggufDefaultAlignment (bytes ++ data.take ti.nbytes)).length =
        bytes.length + padUp ti.nbytes ggufDefaultAlignment := by
      rw [pad_append halign, length_append, pad_length, length_take, Nat.min_eq_left hle]
    rw [ih (hmid ▸ Nat.dvd_add halign (dvd_padUp _ _)) hrest, hmid, dataBytes_cons]
    omega

theorem dataSize_readBack {s : GgufReader} (h : Section start infos)
    (hnbytes : ∀ ti ∈ infos, (readBack ti).nbytes = ti.nbytes) :
    dataSize ggufDefaultAlignment (infos.map readBack) start s = .ok (start + dataBytes infos) s := by
  induction infos generalizing start with
  | nil => rfl
  | cons ti infos ih =>
    obtain ⟨hti, hlt, hrest⟩ := h.tail
    have hpad : ggmlPad (readBack ti).nbytes ggufDefaultAlignment = padUp ti.nbytes ggufDefaultAlignment := by
      rw [hnbytes ti mem_cons_self]
      exact ggmlPad_default (Nat.lt_of_le_of_lt (Nat.le_add_left _ _) hlt)
    have hoff : ¬(readBack ti).offset ≠ start := not_not.mpr hti
    have hfits : ¬sizeLimit - 1 - start < padUp ti.nbytes ggufDefaultAlignment := by omega
    rw [map_cons, dataSize, hpad, bind_ok (reject_ok hoff), bind_ok (reject_ok hfits), ih hrest fun t ht => hnbytes t (mem_cons_of_mem ti ht), dataBytes_cons,
      Nat.add_assoc]

/-- The data of a tensor is at its offset. -/
theorem sections_slices {front rest : List UInt8} {base : Nat} (h : Section start infos)
    (hpresent : ∀ ti ∈ infos, Present ti) (hlen : front.length = base + start) :
    (infos.map fun ti => ((front ++ (sections infos ++ rest)).drop (base + ti.offset)).take ti.nbytes) =
      infos.map contents := by
  induction infos generalizing front start with
  | nil => rfl
  | cons ti infos ih =>
    obtain ⟨hti, -, hrest⟩ := h.tail
    have hhere := (hpresent ti mem_cons_self).length
    have hsplit : front ++ (sections (ti :: infos) ++ rest) =
        (front ++ pad ggufDefaultAlignment (contents ti)) ++ (sections infos ++ rest) := by
      simp [sections]
    have hothers := @ih _ (front ++ pad ggufDefaultAlignment (contents ti)) hrest
      (fun t ht => hpresent t (mem_cons_of_mem ti ht))
      (by rw [length_append, pad_length, hhere]; omega)
    rw [map_cons, map_cons, hsplit, hothers]
    refine congrArg (· :: _) ?_
    rw [hti, ← hlen, append_assoc, drop_left, pad, append_assoc, ← hhere, take_left]

end LlamaCpp.GgufReader
