import LlamaCpp.Gguf.WrittenTensors
import LlamaCpp.Lib.Loops

/-!
# The round trip

A context that was built by calls is written and read again.  `Readable` says for which contexts the
result is the same: the writer pads to the default alignment, whatever `general.alignment` says, drops
dimensions of 0, and has none of the limits of the reader.
-/

namespace LlamaCpp.GgufReader

open List Option

open Readers (bind_eq_ok bind_ok putLE getLE putLE_length)
open GgufContext (Built pad)

/-! ## What is written -/

def dataStart (ctx : GgufContext) : Nat :=
  if ctx.info = [] then metaSize ctx else padUp (metaSize ctx) ggufDefaultAlignment

/-- The bytes in front of the data section, without the padding. -/
def metaBytes (ctx : GgufContext) (outs : List (List UInt8)) : List UInt8 :=
  ctx.writeHeader ++ (outs.flatten ++ ctx.info.flatMap GgufTensorInfo.writeMeta)

variable {outs : List (List UInt8)}

theorem kvs_length {kvs : List GgufKv} (hmade : ∀ kv ∈ kvs, kv.Made) (hfits : ∀ kv ∈ kvs, KvFits kv)
    (houts : kvs.mapM GgufKv.write = some outs) : outs.flatten.length = (kvs.map kvSize).sum := by
  induction Loops.mapM_eq_some.mp houts with
  | nil => rfl
  | cons hwrite hrest ih =>
    rw [flatten_cons, length_append, map_cons, sum_cons,
      write_length (hmade _ mem_cons_self) (hfits _ mem_cons_self) hwrite,
      ih (fun kv hkv => hmade kv (mem_cons_of_mem _ hkv)) (fun kv hkv => hfits kv (mem_cons_of_mem _ hkv))
        (Loops.mapM_eq_some.mpr hrest)]

theorem metaBytes_length {ctx : GgufContext} (hbuilt : Built ctx) (hkv : ∀ kv ∈ ctx.kv, KvFits kv)
    (houts : ctx.kv.mapM GgufKv.write = some outs) : (metaBytes ctx outs).length = metaSize ctx := by
  have hheader : ctx.writeHeader.length = 24 := by
    unfold GgufContext.writeHeader
    simp only [length_append, putLE_length]
    rfl
  have hkvs := kvs_length hbuilt.made hkv houts
  have hmetas : (ctx.info.flatMap GgufTensorInfo.writeMeta).length = (ctx.info.map tensorMetaSize).sum := by
    rw [List.length_flatMap]
    simp only [writeMeta_length]
  unfold metaBytes metaSize
  rw [length_append, length_append, hheader, hkvs, hmetas, Nat.add_assoc]

theorem writeOut_eq {ctx : GgufContext} (hbuilt : Built ctx)
    (houts : ctx.kv.mapM GgufKv.write = some outs) (hlen : (metaBytes ctx outs).length = metaSize ctx) :
    ctx.writeOut false =
      ctx.info.foldlM
        (GgufContext.writeTensorData (padUp (metaSize ctx) ggufDefaultAlignment) ggufDefaultAlignment)
        (pad ggufDefaultAlignment (metaBytes ctx outs)) := by
  unfold GgufContext.writeOut
  rw [houts, hbuilt.alignment, bind_eq_bind, bind_some, if_neg (by decide), append_assoc]
  change ctx.info.foldlM (GgufContext.writeTensorData (pad ggufDefaultAlignment (metaBytes ctx outs)).length _) _ = _
  rw [pad_length, hlen]
  rfl

/-! ## When it is read back -/

/-- The arguments of the loading fit in `size_t`. -/
def MemoryOk (nTensors size : Nat) : GgufLoad → Prop
  | .none => True
  | .noAlloc => nTensors * ggmlTensorOverhead < sizeLimit
  | .alloc => (nTensors + 1) * ggmlTensorOverhead + size < sizeLimit

/-- The alignment that is read is the default. -/
def AlignmentDefault (kvs : List GgufKv) : Prop :=
  alignmentIdx kvs = -1 ∨
    ({ kv := kvs } : GgufContext).getValU32 (alignmentIdx kvs) = some ggufDefaultAlignment

/-- What the reader can read of a context and its writer writes as it is. -/
structure Readable (load : GgufLoad) (ctx : GgufContext) : Prop where
  alignment : AlignmentDefault ctx.kv
  kv : ∀ kv ∈ ctx.kv, KvFits kv
  kvCount : ctx.kv.length ≤ (sizeLimit - 1) / 88
  infoCount : ctx.info.length ≤ (sizeLimit - 1) / 344
  shape : ∀ ti ∈ ctx.info, ShapeOk ti.ne
  type : ∀ ti ∈ ctx.info, TypeOk ti.type ti.ne
  nbytes : ∀ ti ∈ ctx.info, (readBack ti).nbytes = ti.nbytes
  padding : ctx.info = [] → ggufDefaultAlignment ∣ metaSize ctx
  size : fileSize ctx < sizeLimit
  memory : MemoryOk ctx.info.length (dataBytes ctx.info) load

/-- What has to be the same of a tensor, apart from its data. -/
def described (ti : GgufTensorInfo) : List UInt8 × Nat × Dims × Nat × Nat :=
  (ti.name, ti.type, ti.ne, ti.nbytes, ti.offset)

/-- `ctx'`, read from `bytes`, has what was written from `ctx`. -/
structure Same (load : GgufLoad) (ctx ctx' : GgufContext) (bytes : List UInt8) : Prop where
  version : ctx'.version = ctx.version
  kv : ctx'.kv = ctx.kv
  info : ctx'.info.map described = ctx.info.map described
  data : (ctx'.info.map fun ti => (bytes.drop (ctx'.offset + ti.offset)).take ti.nbytes) = ctx.info.map contents
  blob : ctx'.data = if load = .alloc then some ((bytes.drop ctx'.offset).take ctx'.size) else none
  size : bytes.length = ctx'.offset + ctx'.size
  alignment : ctx'.alignment = ctx.alignment

/-- What is written is read back. -/
def RoundTrips (maxChunk : Nat) (load : GgufLoad) (ctx : GgufContext) : Prop :=
  ∃ bytes, ctx.writeOut false = some bytes ∧ bytes.length < sizeLimit ∧
    ∃ ctx' s', initFromReader (ofBytes bytes) maxChunk load (new bytes) = .ok ctx' s' ∧
      Same load ctx ctx' bytes

theorem findAlignment_default {kvs : List GgufKv} {s : GgufReader} :
    findAlignment kvs s = .ok ggufDefaultAlignment s ↔ AlignmentDefault kvs := by
  have hpow : ¬(ggufDefaultAlignment = 0 ∨ ggufDefaultAlignment &&& (ggufDefaultAlignment - 1) ≠ 0) := by decide
  have hof : findAlignment kvs s = .ok ggufDefaultAlignment s ↔ alignmentOf kvs s = .ok ggufDefaultAlignment s := by
    constructor
    · intro h
      obtain ⟨a, s1, ha, h⟩ := bind_eq_ok.mp h
      obtain ⟨_, s2, hr, h⟩ := bind_eq_ok.mp h
      obtain ⟨-, rfl⟩ := reject_eq_ok.mp hr
      obtain ⟨rfl, rfl⟩ := pure_eq_ok.mp h
      exact ha
    · intro h
      exact (bind_ok h).trans (bind_ok (reject_ok hpow))
  rw [hof]
  unfold alignmentOf AlignmentDefault
  split
  · next hnone => exact iff_of_true rfl (.inl hnone)
  · next hsome =>
    cases hval : ({ kv := kvs } : GgufContext).getValU32 (alignmentIdx kvs) with
    | none => exact iff_of_false fault_ne_ok (by simp [hsome])
    | some a =>
      rw [pure_eq_ok, some_inj]
      exact ⟨fun h => .inr h.1, fun h => ⟨h.resolve_left hsome, rfl⟩⟩

theorem dataBytes_dvd (infos : List GgufTensorInfo) : ggufDefaultAlignment ∣ dataBytes infos := by
  induction infos with
  | nil => exact Nat.dvd_zero _
  | cons ti infos ih =>
    rw [dataBytes_cons]
    exact Nat.dvd_add (dvd_padUp _ _) ih

/-- The tests of the loading, by the size of its memory. -/
theorem alloc_tests {n size : Nat} : (n + 1) * ggmlTensorOverhead + size < sizeLimit ↔
    ¬(sizeLimit - 1) / (n + 1) < ggmlTensorOverhead ∧ ¬sizeLimit - 1 - (n + 1) * ggmlTensorOverhead < size := by
  rw [Nat.not_lt, Nat.le_div_iff_mul_le (Nat.succ_pos n), Nat.mul_comm]
  simp only [ggmlObjectSize, ggmlTensorOverhead, ggmlTensorSize, sizeLimit]
  omega

theorem loadTensors_alloc {bytes xs rest : List UInt8} {maxChunk nTensors : Nat} {s : GgufReader}
    (hlimit : bytes.length < sizeLimit) (hchunk : 1 ≤ maxChunk) (hat : At bytes s (xs ++ rest))
    (hdvd : 16 ∣ xs.length) (hmem : MemoryOk nTensors xs.length .alloc) :
    ∃ s', loadTensors (ofBytes bytes) maxChunk nTensors xs.length .alloc s = .ok (some xs) s' := by
  have hfits : (nTensors + 1) * ggmlTensorOverhead + xs.length < sizeLimit := hmem
  have hpool : poolSize ((nTensors + 1) * ggmlTensorOverhead + xs.length) =
      (nTensors + 1) * ggmlTensorOverhead + xs.length := by
    refine poolSize_eq ?_ (Nat.dvd_add (Nat.dvd_mul_left_of_dvd (by decide) _) hdvd) hfits
    simp only [ggmlObjectSize, ggmlTensorOverhead, ggmlTensorSize]
    omega
  have hnull : 0 + (ggmlObjectSize + (ggmlTensorSize + xs.length)) ≤
      (nTensors + 1) * ggmlTensorOverhead + xs.length := by
    simp only [ggmlObjectSize, ggmlTensorOverhead, ggmlTensorSize]
    omega
  have hothers : 0 + ggmlObjectSize + (ggmlTensorSize + xs.length) + nTensors * ggmlTensorOverhead ≤
      (nTensors + 1) * ggmlTensorOverhead + xs.length := by
    simp only [ggmlObjectSize, ggmlTensorOverhead, ggmlTensorSize]
    omega
  have hassert : ggmlTensorSize ≤ sizeLimit - 1 - xs.length := by
    simp only [ggmlObjectSize, ggmlTensorOverhead, ggmlTensorSize, sizeLimit] at hfits ⊢
    omega
  obtain ⟨hquot, hrest⟩ := alloc_tests.mp hfits
  obtain ⟨s', hread, -⟩ := reads_read hlimit hchunk xs s rest hat
  have hobject : newObject ((nTensors + 1) * ggmlTensorOverhead + xs.length) 0 (ggmlTensorSize + xs.length) s =
      .ok (0 + ggmlObjectSize + (ggmlTensorSize + xs.length)) s :=
    newObject_ok (Nat.dvd_add (by decide) hdvd) hnull hfits
  rw [← hpool] at hobject
  refine ⟨s', (bind_ok (reject_ok hquot)).trans ((bind_ok (reject_ok hrest)).trans
    ((bind_ok (ensure_ok hassert)).trans ((bind_ok hobject).trans ((bind_ok hread).trans ?_))))⟩
  rw [hpool]
  exact (bind_ok (newTensors_ok hothers hfits)).trans rfl

/-- The data is loaded if and only if the memory can be asked for. -/
theorem loadTensors_eq_ok {bytes xs rest : List UInt8} {maxChunk nTensors : Nat} {load : GgufLoad} {s : GgufReader}
    (hlimit : bytes.length < sizeLimit) (hchunk : 1 ≤ maxChunk) (hat : At bytes s (xs ++ rest))
    (hdvd : 16 ∣ xs.length) {data : Option (List UInt8)} :
    (∃ s', loadTensors (ofBytes bytes) maxChunk nTensors xs.length load s = .ok data s') ↔
      MemoryOk nTensors xs.length load ∧ data = if load = .alloc then some xs else none := by
  cases load with
  | none =>
    constructor
    · rintro ⟨s', h⟩
      obtain ⟨rfl, -⟩ := pure_eq_ok.mp h
      exact ⟨trivial, rfl⟩
    · rintro ⟨-, rfl⟩
      exact ⟨s, rfl⟩
  | noAlloc =>
    constructor
    · rintro ⟨s', h⟩
      obtain ⟨_, s1, hr, h⟩ := bind_eq_ok.mp h
      obtain ⟨_, s2, -, h⟩ := bind_eq_ok.mp h
      obtain ⟨rfl, -⟩ := pure_eq_ok.mp h
      exact ⟨mul_lt_sizeLimit (reject_eq_ok.mp hr).1, rfl⟩
    · rintro ⟨hmem, rfl⟩
      have hmem : nTensors * ggmlTensorOverhead < sizeLimit := hmem
      refine ⟨s, (bind_ok (reject_ok ?_)).trans ((bind_ok (newTensors_noAlloc hmem)).trans rfl)⟩
      rintro ⟨hne, hlt⟩
      have hmul := Nat.lt_mul_of_div_lt hlt (Nat.pos_of_ne_zero hne)
      rw [Nat.mul_comm] at hmul
      omega
  | alloc =>
    constructor
    · rintro ⟨s', h⟩
      have hmem : MemoryOk nTensors xs.length .alloc := by
        obtain ⟨_, s1, hr, h⟩ := bind_eq_ok.mp h
        obtain ⟨_, s2, hr', -⟩ := bind_eq_ok.mp h
        exact alloc_tests.mpr ⟨(reject_eq_ok.mp hr).1, (reject_eq_ok.mp hr').1⟩
      obtain ⟨s'', hrun⟩ := loadTensors_alloc hlimit hchunk hat hdvd hmem
      rw [hrun] at h
      obtain ⟨rfl, -⟩ := EStateM.Result.ok.inj h
      exact ⟨hmem, rfl⟩
    · rintro ⟨hmem, rfl⟩
      exact loadTensors_alloc hlimit hchunk hat hdvd hmem

/-! ## The run of the reader -/

def readCtx (ctx : GgufContext) (data : Option (List UInt8)) : GgufContext where
  version := ctx.version
  kv := ctx.kv
  info := ctx.info.map readBack
  alignment := ctx.alignment
  offset := dataStart ctx
  size := dataBytes ctx.info
  data := data

/-- What both directions know of a context. -/
structure Parts (ctx : GgufContext) : Prop where
  built : Built ctx
  present : ∀ ti ∈ ctx.info, Present ti
  alignment : AlignmentDefault ctx.kv
  kv : ∀ kv ∈ ctx.kv, KvFits kv
  kvCount : ctx.kv.length ≤ (sizeLimit - 1) / 88
  infoCount : ctx.info.length ≤ (sizeLimit - 1) / 344
  shape : ∀ ti ∈ ctx.info, ShapeOk ti.ne
  type : ∀ ti ∈ ctx.info, TypeOk ti.type ti.ne
  nbytes : ∀ ti ∈ ctx.info, (readBack ti).nbytes = ti.nbytes

section Run

variable {ctx : GgufContext} {bytes : List UInt8} {maxChunk : Nat}

theorem writeOut_length (hbuilt : Built ctx) (hkv : ∀ kv ∈ ctx.kv, KvFits kv)
    (hwrite : ctx.writeOut false = some bytes) : bytes.length = fileSize ctx := by
  obtain ⟨outs, houts, -⟩ := bind_eq_some_iff.mp hwrite
  have hlen := metaBytes_length hbuilt hkv houts
  rw [writeOut_eq hbuilt houts hlen] at hwrite
  rw [writeData_length (pad_length _ ▸ dvd_padUp _ _) hwrite, pad_length, hlen]
  rfl

/-- What was written: the part in front of the data section, zeros and the data section. -/
theorem writeOut_parts (h : Parts ctx) {outs : List (List UInt8)} (houts : ctx.kv.mapM GgufKv.write = some outs)
    (hfits : fileSize ctx < sizeLimit) :
    ctx.writeOut false = some (pad ggufDefaultAlignment (metaBytes ctx outs) ++ sections ctx.info) ∧
      Section 0 ctx.info := by
  have hlen := metaBytes_length h.built h.kv houts
  have hchain := h.built.chained
  rw [h.built.alignment] at hchain
  have hsection : Section 0 ctx.info := ⟨hchain, Nat.dvd_zero _, by unfold fileSize at hfits; omega⟩
  rw [writeOut_eq h.built houts hlen]
  refine ⟨writeData_ok hsection h.present (fun ti hti => (h.type ti hti).blck) (dvd_padUp _ _) ?_, hsection⟩
  rw [pad_length, hlen]
  rfl

theorem seekData_written {front zeros rest : List UInt8} {n : Nat} {s : GgufReader}
    (hlimit : bytes.length < sizeLimit) (hat : At bytes s (zeros ++ rest))
    (hpad : bytes = pad ggufDefaultAlignment front ++ rest) (hstart : s.dataOffset = front.length) (hn : 0 < n) :
    ∃ s', seekData n ggufDefaultAlignment s = .ok () s' ∧ At bytes s' rest ∧
      s'.dataOffset = padUp front.length ggufDefaultAlignment := by
  have hlen : bytes.length = padUp front.length ggufDefaultAlignment + rest.length := by
    rw [hpad, length_append, pad_length]
  have hend : (s.dataOffset + s.nbytesRemain) % sizeLimit = bytes.length := by
    rw [hat.remain, hat.offset, Nat.mod_eq_of_lt hlimit]
  have htarget : ggmlPad s.dataOffset ggufDefaultAlignment = padUp front.length ggufDefaultAlignment := by
    rw [hstart]
    exact ggmlPad_default (by omega)
  refine ⟨⟨padUp front.length ggufDefaultAlignment,
    bytes.length - padUp front.length ggufDefaultAlignment⟩, ?_, ⟨?_, hlen.symm, Nat.sub_eq_of_eq_add' hlen⟩, rfl⟩
  · unfold seekData
    rw [if_pos hn]
    have hself : self s = .ok s s := rfl
    refine (bind_ok hself).trans ?_
    unfold seek
    rw [htarget, hend, if_neg (by omega)]
  · rw [hpad, ← pad_length, drop_left]

/-- The reader comes as far as the loading of the tensors. -/
theorem initFromReader_written (h : Parts ctx) (load : GgufLoad) (hlimit : bytes.length < sizeLimit)
    (hchunk : 1 ≤ maxChunk) (hwrite : ctx.writeOut false = some bytes) :
    ∃ s rest, At bytes s (sections ctx.info ++ rest) ∧ s.dataOffset = dataStart ctx ∧
      initFromReader (ofBytes bytes) maxChunk load (new bytes) =
        (loadTensors (ofBytes bytes) maxChunk ctx.info.length (dataBytes ctx.info) load >>=
          fun data => pure (readCtx ctx data)) s := by
  have hfits : fileSize ctx < sizeLimit := writeOut_length h.built h.kv hwrite ▸ hlimit
  obtain ⟨outs, houts, hkvs⟩ := @reads_readKvs bytes maxChunk hlimit hchunk ctx.kv [] h.built.made h.kv
    (fun kv hkv => (h.built.key kv hkv).1) h.built.keys
  obtain ⟨hparts, hsection⟩ := writeOut_parts h houts hfits
  have hlen := metaBytes_length h.built h.kv houts
  rw [hwrite] at hparts
  have hbytes := some.inj hparts
  have hheader := reads_readHeader hlimit hchunk h.built.version h.infoCount h.kvCount
  have hinfos := @reads_readInfos bytes maxChunk hlimit hchunk ctx.info [] h.built.name h.built.names h.shape h.type
    hsection.offset_lt
  -- the reader steps through the parts
  have hall : bytes = ctx.writeHeader ++ (outs.flatten ++ (ctx.info.flatMap GgufTensorInfo.writeMeta ++
      (List.replicate ((ggufDefaultAlignment - (metaBytes ctx outs).length % ggufDefaultAlignment) %
        ggufDefaultAlignment) 0 ++ sections ctx.info))) := by
    rw [hbytes, pad]
    simp only [metaBytes, append_assoc]
  generalize List.replicate _ (0 : UInt8) = zeros at hall
  have hat : At bytes (new bytes) bytes := ⟨rfl, Nat.zero_add _, rfl⟩
  conv at hat => arg 3; rw [hall]
  obtain ⟨s1, hrun1, hat1⟩ := hheader _ _ hat
  obtain ⟨s2, hrun2, hat2⟩ := hkvs _ _ hat1
  obtain ⟨s3, hrun3, hat3⟩ := hinfos _ _ hat2
  have hstart : s3.dataOffset = (metaBytes ctx outs).length := by
    have hoff := hat3.offset
    have htotal := congrArg List.length hall
    unfold metaBytes
    simp only [length_append] at hoff htotal ⊢
    omega
  have hseek : ∃ s4 rest, seekData ctx.info.length ggufDefaultAlignment s3 = .ok () s4 ∧
      At bytes s4 (sections ctx.info ++ rest) ∧ s4.dataOffset = dataStart ctx := by
    unfold dataStart
    split
    · next hnone =>
      rw [hnone] at hat3 ⊢
      exact ⟨s3, zeros, rfl, by simpa [sections] using hat3, hstart.trans hlen⟩
    · next hsome =>
      obtain ⟨s4, hrun4, hat4, hoff4⟩ := seekData_written hlimit hat3 hbytes hstart
        (length_pos_iff.mpr hsome)
      exact ⟨s4, [], hrun4, by rwa [append_nil], hoff4.trans (by rw [hlen])⟩
  obtain ⟨s4, rest, hrun4, hat4, hoff4⟩ := hseek
  refine ⟨s4, rest, hat4, hoff4, ?_⟩
  have halign : findAlignment ctx.kv s2 = .ok ggufDefaultAlignment s2 := findAlignment_default.mpr h.alignment
  have hsize := dataSize_readBack (s := s4) hsection h.nbytes
  rw [Nat.zero_add] at hsize
  have hself : self s4 = .ok s4 s4 := rfl
  unfold initFromReader
  rw [nil_append] at hrun2 hrun3
  rw [bind_ok hrun1]
  dsimp only
  rw [bind_ok hrun2, bind_ok (ensure_ok rfl), bind_ok halign, bind_ok hrun3,
    bind_ok (ensure_ok (length_map _)), bind_ok hrun4, bind_ok hself, bind_ok hsize, hoff4]
  unfold readCtx
  rw [h.built.version, h.built.alignment]

/-- The sizes agree if there is a tensor, or no padding. -/
theorem dataStart_add (ctx : GgufContext) : fileSize ctx = dataStart ctx + dataBytes ctx.info ↔
    (ctx.info = [] → ggufDefaultAlignment ∣ metaSize ctx) := by
  unfold fileSize dataStart
  split
  · next hnone =>
    constructor
    · intro h _
      have hdvd := dvd_padUp (metaSize ctx) ggufDefaultAlignment
      rwa [Nat.add_right_cancel h] at hdvd
    · intro h
      obtain ⟨k, hk⟩ := h hnone
      have hpad : padUp (metaSize ctx) ggufDefaultAlignment = metaSize ctx := by
        unfold padUp
        simp only [ggufDefaultAlignment] at *
        omega
      rw [hpad]
  · next hsome => exact iff_of_true rfl fun h => absurd h hsome

/-- What the reader returns for a readable context. -/
theorem Readable.roundTrips {load : GgufLoad} (hbuilt : Built ctx) (hpresent : ∀ ti ∈ ctx.info, Present ti)
    (hchunk : 1 ≤ maxChunk) (h : Readable load ctx) : RoundTrips maxChunk load ctx := by
  have hparts : Parts ctx :=
    ⟨hbuilt, hpresent, h.alignment, h.kv, h.kvCount, h.infoCount, h.shape, h.type, h.nbytes⟩
  obtain ⟨outs, houts, -⟩ := @reads_readKvs [] 1 (by decide) (Nat.le_refl 1) ctx.kv [] hbuilt.made h.kv
    (fun kv hkv => (hbuilt.key kv hkv).1) hbuilt.keys
  obtain ⟨hwrite, hsection⟩ := writeOut_parts hparts houts h.size
  have hlen := writeOut_length hbuilt h.kv hwrite
  generalize pad ggufDefaultAlignment (metaBytes ctx outs) ++ sections ctx.info = bytes at hwrite hlen
  have hlimit : bytes.length < sizeLimit := hlen ▸ h.size
  obtain ⟨s, rest, hat, hstart, hrun⟩ := initFromReader_written hparts load hlimit hchunk hwrite
  have hsize := sections_length hpresent
  have hdvd : 16 ∣ (sections ctx.info).length := hsize ▸ Nat.dvd_trans (by decide) (dataBytes_dvd ctx.info)
  obtain ⟨s', hload⟩ := (@loadTensors_eq_ok _ _ _ _ ctx.info.length load _ hlimit hchunk hat hdvd _).mpr
    ⟨hsize ▸ h.memory, rfl⟩
  rw [hsize] at hload
  have hdrop : bytes.drop (dataStart ctx) = sections ctx.info ++ rest := hstart ▸ hat.drop
  refine ⟨bytes, hwrite, hlimit, _, s', hrun.trans ((bind_ok hload).trans rfl), rfl, rfl, ?_, ?_, ?_, ?_, rfl⟩
  · simp only [readCtx, List.map_map]
    refine map_congr_left fun ti hti => ?_
    have hsame := h.nbytes ti hti
    simp only [Function.comp_apply, described, hsame]
    rfl
  · have hslices := @sections_slices ctx.info 0 (bytes.take (dataStart ctx)) rest (dataStart ctx) hsection hpresent
      (by
        have hoff := hat.offset
        rw [length_take, ← hstart]
        omega)
    rw [← hdrop, take_append_drop] at hslices
    rw [← hslices]
    simp only [readCtx, List.map_map]
    refine map_congr_left fun ti hti => ?_
    simp only [Function.comp_apply, h.nbytes ti hti]
    rfl
  · simp only [readCtx]
    rw [hdrop, ← hsize, take_left]
  · rw [hlen]
    exact (dataStart_add ctx).mpr h.padding

end Run

/-! ## What the reader has checked -/

section Checked

variable {callback : Nat → Nat → List UInt8} {maxChunk : Nat} {s s' : GgufReader} {xs : List UInt8}
  {n : Nat}

theorem read_length {size : Nat} (h : read callback maxChunk size s = .ok xs s') : xs.length = size := by
  obtain ⟨s1, s2, -, h⟩ := bind_eq_ok.mp h
  obtain ⟨_, s3, -, h⟩ := bind_eq_ok.mp h
  obtain ⟨ys, s4, -, h⟩ := bind_eq_ok.mp h
  obtain ⟨_, s5, hr, h⟩ := bind_eq_ok.mp h
  obtain ⟨rfl, -⟩ := pure_eq_ok.mp h
  exact not_not.mp (reject_eq_ok.mp hr).1

theorem readString_length (h : readString callback maxChunk s = .ok xs s') : xs.length ≤ ggufMaxLength := by
  obtain ⟨size, s1, -, h⟩ := bind_eq_ok.mp h
  obtain ⟨_, s2, hr, h⟩ := bind_eq_ok.mp h
  rw [read_length h]
  exact Nat.not_lt.mp (reject_eq_ok.mp hr).1

theorem readMany_ok {α : Type} {x : GgufM α} {as : List α} (h : readMany x n s = .ok as s') :
    as.length = n ∧ ∀ a ∈ as, ∃ s s', x s = .ok a s' := by
  induction n generalizing s s' as with
  | zero =>
    obtain ⟨rfl, -⟩ := pure_eq_ok.mp h
    exact ⟨rfl, fun _ ha => absurd ha not_mem_nil⟩
  | succ n ih =>
    obtain ⟨a, s1, ha, h⟩ := bind_eq_ok.mp h
    obtain ⟨as, s2, has, h⟩ := bind_eq_ok.mp h
    obtain ⟨rfl, -⟩ := pure_eq_ok.mp h
    obtain ⟨hlen, hall⟩ := ih has
    refine ⟨congrArg Nat.succ hlen, fun b hb => ?_⟩
    rcases mem_cons.mp hb with rfl | hb
    · exact ⟨_, _, ha⟩
    · exact hall b hb

theorem readValue_ok {type : GgufType} (h : readValue callback maxChunk type s = .ok xs s') :
    xs.length = type.size ∧ (type = .bool → ∀ byte ∈ xs, byte = 0 ∨ byte = 1) := by
  unfold readValue at h
  split at h
  · next htype =>
    obtain ⟨byte, s1, -, h⟩ := bind_eq_ok.mp h
    obtain ⟨rfl, -⟩ := pure_eq_ok.mp h
    refine ⟨by rw [htype]; rfl, fun _ b hb => ?_⟩
    obtain rfl := mem_singleton.mp hb
    split
    · exact .inr rfl
    · exact .inl rfl
  · next htype => exact ⟨read_length h, fun hbool => absurd hbool htype⟩

theorem checkArray_le {size : Nat} {u : Unit} (h : checkArray n size s = .ok u s') : n ≤ ggufMaxLength := by
  obtain ⟨s1, s2, -, h⟩ := bind_eq_ok.mp h
  obtain ⟨_, s3, hr, -⟩ := bind_eq_ok.mp h
  exact Nat.not_lt.mp (reject_eq_ok.mp hr).1

theorem readEmplace_fits {key : List UInt8} {type : GgufType} {isArray : Bool} {kv : GgufKv}
    (hkey : key.length ≤ ggufMaxLength)
    (h : readEmplace callback maxChunk key type isArray n s = .ok kv s') : KvFits kv := by
  unfold readEmplace at h
  split at h
  · exact absurd h fault_ne_ok
  · split at h
    · split at h
      · obtain ⟨_, s1, hcheck, h⟩ := bind_eq_ok.mp h
        obtain ⟨strings, s2, hmany, h⟩ := bind_eq_ok.mp h
        obtain ⟨rfl, -⟩ := pure_eq_ok.mp h
        obtain ⟨hlen, hall⟩ := readMany_ok hmany
        refine ⟨hkey, fun x hx => ?_, hlen ▸ checkArray_le hcheck, ?_, fun _ _ hb => absurd hb not_mem_nil⟩
        · obtain ⟨_, _, hread⟩ := hall x hx
          exact readString_length hread
        · rw [length_nil, Nat.zero_div]
          exact Nat.zero_le _
      · obtain ⟨string, s1, hread, h⟩ := bind_eq_ok.mp h
        obtain ⟨rfl, -⟩ := pure_eq_ok.mp h
        refine ⟨hkey, fun x hx => ?_, show 1 ≤ ggufMaxLength by decide, ?_, fun _ _ hb => absurd hb not_mem_nil⟩
        · obtain rfl := mem_singleton.mp hx
          exact readString_length hread
        · rw [length_nil, Nat.zero_div]
          exact Nat.zero_le _
    · split at h
      · obtain ⟨_, s1, hcheck, h⟩ := bind_eq_ok.mp h
        obtain ⟨values, s2, hmany, h⟩ := bind_eq_ok.mp h
        obtain ⟨rfl, -⟩ := pure_eq_ok.mp h
        obtain ⟨hlen, hall⟩ := readMany_ok hmany
        have hflat : values.flatten.length = n * type.size := by
          have hsizes : values.map List.length = List.replicate n type.size := by
            refine eq_replicate_iff.mpr ⟨by rw [length_map, hlen], fun k hk => ?_⟩
            obtain ⟨x, hx, rfl⟩ := List.mem_map.mp hk
            obtain ⟨_, _, hread⟩ := hall x hx
            exact (readValue_ok hread).1
          rw [length_flatten, hsizes, sum_replicate_nat]
        refine ⟨hkey, fun _ hx => absurd hx not_mem_nil, Nat.zero_le _, ?_, fun htype byte hbyte => ?_⟩
        · rw [hflat]
          exact Nat.le_trans (Nat.div_le_of_le_mul (Nat.le_of_eq (Nat.mul_comm ..))) (checkArray_le hcheck)
        · obtain ⟨x, hx, hbyte⟩ := mem_flatten.mp hbyte
          obtain ⟨_, _, hread⟩ := hall x hx
          exact (readValue_ok hread).2 htype byte hbyte
      · obtain ⟨value, s1, hread, h⟩ := bind_eq_ok.mp h
        obtain ⟨rfl, -⟩ := pure_eq_ok.mp h
        obtain ⟨hlen, hbool⟩ := readValue_ok hread
        refine ⟨hkey, fun _ hx => absurd hx not_mem_nil, Nat.zero_le _, ?_, hbool⟩
        rw [hlen]
        exact Nat.le_trans (Nat.div_le_of_le_mul (Nat.le_of_eq (Nat.mul_one _).symm)) (show 1 ≤ ggufMaxLength by decide)

theorem readKv_fits {kvs : List GgufKv} {kv : GgufKv} (h : readKv callback maxChunk kvs s = .ok kv s') :
    KvFits kv := by
  unfold readKv at h
  obtain ⟨key, s1, hkey, h⟩ := bind_eq_ok.mp h
  obtain ⟨_, s2, -, h⟩ := bind_eq_ok.mp h
  obtain ⟨_, s3, -, h⟩ := bind_eq_ok.mp h
  obtain ⟨type, s4, -, h⟩ := bind_eq_ok.mp h
  have hlen := readString_length hkey
  split at h
  · obtain ⟨type, s5, -, h⟩ := bind_eq_ok.mp h
    obtain ⟨n, s6, -, h⟩ := bind_eq_ok.mp h
    split at h
    · exact readEmplace_fits hlen h
    · exact absurd h fault_ne_ok
  · exact readEmplace_fits hlen h
  · exact absurd h fault_ne_ok

theorem readKvs_fits {kvs out : List GgufKv} (hkvs : ∀ kv ∈ kvs, KvFits kv)
    (h : readKvs callback maxChunk n kvs s = .ok out s') : ∀ kv ∈ out, KvFits kv := by
  induction n generalizing kvs s with
  | zero =>
    obtain ⟨rfl, -⟩ := pure_eq_ok.mp h
    exact hkvs
  | succ n ih =>
    obtain ⟨kv, s1, hone, h⟩ := bind_eq_ok.mp h
    refine ih (fun k hk => ?_) h
    rcases List.mem_append.mp hk with hk | hk
    · exact hkvs k hk
    · obtain rfl := mem_singleton.mp hk
      exact readKv_fits hone

theorem readHeader_le {version nTensors nKv : Nat}
    (h : readHeader callback maxChunk s = .ok (version, nTensors, nKv) s') :
    nTensors ≤ (sizeLimit - 1) / 344 ∧ nKv ≤ (sizeLimit - 1) / 88 := by
  obtain ⟨_, s1, -, h⟩ := bind_eq_ok.mp h
  obtain ⟨_, s2, -, h⟩ := bind_eq_ok.mp h
  obtain ⟨_, s3, -, h⟩ := bind_eq_ok.mp h
  obtain ⟨_, s4, -, h⟩ := bind_eq_ok.mp h
  obtain ⟨_, s5, -, h⟩ := bind_eq_ok.mp h
  obtain ⟨_, s6, -, h⟩ := bind_eq_ok.mp h
  obtain ⟨tensors, s7, -, h⟩ := bind_eq_ok.mp h
  obtain ⟨_, s8, hr, h⟩ := bind_eq_ok.mp h
  obtain ⟨kvs, s9, -, h⟩ := bind_eq_ok.mp h
  obtain ⟨_, s10, hr', h⟩ := bind_eq_ok.mp h
  obtain ⟨heq, -⟩ := pure_eq_ok.mp h
  obtain ⟨-, heq⟩ := Prod.mk.inj heq
  obtain ⟨rfl, rfl⟩ := Prod.mk.inj heq
  have h1 := (reject_eq_ok.mp hr).1
  have h2 := (reject_eq_ok.mp hr').1
  omega

theorem readInfos_checked {infos out : List GgufTensorInfo}
    (hinfos : ∀ ti ∈ infos, ShapeOk ti.ne ∧ TypeOk ti.type ti.ne ∧ ti.nb = .of ti.type ti.ne)
    (h : readInfos callback maxChunk n infos s = .ok out s') :
    ∀ ti ∈ out, ShapeOk ti.ne ∧ TypeOk ti.type ti.ne ∧ ti.nb = .of ti.type ti.ne := by
  induction n generalizing infos s with
  | zero =>
    obtain ⟨rfl, -⟩ := pure_eq_ok.mp h
    exact hinfos
  | succ n ih =>
    obtain ⟨info, s1, hone, h⟩ := bind_eq_ok.mp h
    refine ih (fun t ht => ?_) h
    rcases List.mem_append.mp ht with ht | ht
    · exact hinfos t ht
    · obtain rfl := mem_singleton.mp ht
      obtain ⟨name, s2, -, hone⟩ := bind_eq_ok.mp hone
      obtain ⟨ne, s3, hne, hone⟩ := bind_eq_ok.mp hone
      obtain ⟨_, s4, hdims, hone⟩ := bind_eq_ok.mp hone
      obtain ⟨code, s5, -, hone⟩ := bind_eq_ok.mp hone
      obtain ⟨type, s6, htype, hone⟩ := bind_eq_ok.mp hone
      obtain ⟨offset, s7, -, hone⟩ := bind_eq_ok.mp hone
      obtain ⟨rfl, -⟩ := pure_eq_ok.mp hone
      obtain ⟨h0, h1, h2, h3⟩ := readDims_ok hne
      exact ⟨shapeOk_of_checkDims h0 h1 h2 h3 hdims, typeOk_of_checkType htype, rfl⟩

end Checked

/-! ## The theorem -/

theorem readable_of_roundTrips {load : GgufLoad} {ctx : GgufContext} {maxChunk : Nat} (hbuilt : Built ctx)
    (hpresent : ∀ ti ∈ ctx.info, Present ti) (hchunk : 1 ≤ maxChunk) (h : RoundTrips maxChunk load ctx) :
    Readable load ctx := by
  obtain ⟨bytes, hwrite, hlimit, ctx', s', hrun, hsame⟩ := h
  have hsteps := hrun
  unfold initFromReader at hsteps
  obtain ⟨⟨version, nTensors, nKv⟩, s1, hheader, hsteps⟩ := bind_eq_ok.mp hsteps
  obtain ⟨kvs, s2, hkvs, hsteps⟩ := bind_eq_ok.mp hsteps
  obtain ⟨_, s3, hnKv, hsteps⟩ := bind_eq_ok.mp hsteps
  obtain ⟨alignment, s4, halign, hsteps⟩ := bind_eq_ok.mp hsteps
  obtain ⟨infos, s5, hinfos, hsteps⟩ := bind_eq_ok.mp hsteps
  obtain ⟨_, s6, hnTensors, hsteps⟩ := bind_eq_ok.mp hsteps
  obtain ⟨_, s7, -, hsteps⟩ := bind_eq_ok.mp hsteps
  obtain ⟨s8, s8', -, hsteps⟩ := bind_eq_ok.mp hsteps
  obtain ⟨size, s9, -, hsteps⟩ := bind_eq_ok.mp hsteps
  obtain ⟨data, s10, -, hsteps⟩ := bind_eq_ok.mp hsteps
  obtain ⟨hctx, -⟩ := pure_eq_ok.mp hsteps
  obtain ⟨hversion, hkv, hinfo, -, -, hsize, halignment⟩ := hsame
  rw [← hctx] at hkv hinfo halignment
  obtain rfl : kvs = ctx.kv := hkv
  obtain rfl : alignment = ggufDefaultAlignment := halignment.trans hbuilt.alignment
  obtain ⟨hcountInfo, hcountKv⟩ := readHeader_le hheader
  have hlenKv := (ensure_eq_ok.mp hnKv).1
  have hlenInfo : ctx.info.length = nTensors := by
    have hlen := congrArg List.length hinfo
    rw [length_map, length_map] at hlen
    exact hlen.symm.trans (ensure_eq_ok.mp hnTensors).1
  -- every tensor has a counterpart that has passed the tests
  have hchecked : ∀ ti ∈ ctx.info, ShapeOk ti.ne ∧ TypeOk ti.type ti.ne ∧ (readBack ti).nbytes = ti.nbytes := by
    intro ti hti
    have hmem : described ti ∈ infos.map described := hinfo ▸ List.mem_map_of_mem hti
    obtain ⟨ti', hti', heq⟩ := List.mem_map.mp hmem
    obtain ⟨hshape, htype, hnb⟩ := readInfos_checked (fun _ h => absurd h not_mem_nil) hinfos ti' hti'
    simp only [described, Prod.mk.injEq] at heq
    obtain ⟨-, htypeEq, hneEq, hnbytes, -⟩ := heq
    rw [hneEq] at hshape htype
    rw [htypeEq] at htype
    refine ⟨hshape, htype, ?_⟩
    rw [← hnbytes]
    unfold GgufTensorInfo.nbytes
    rw [hnb, htypeEq, hneEq]
    rfl
  have hparts : Parts ctx := {
    built := hbuilt
    present := hpresent
    alignment := findAlignment_default.mp ((findAlignment_ok halign).2.2 ▸ halign)
    kv := readKvs_fits (fun _ h => absurd h not_mem_nil) hkvs
    kvCount := hlenKv ▸ hcountKv
    infoCount := hlenInfo ▸ hcountInfo
    shape := fun ti hti => (hchecked ti hti).1
    type := fun ti hti => (hchecked ti hti).2.1
    nbytes := fun ti hti => (hchecked ti hti).2.2 }
  have hlen := writeOut_length hbuilt hparts.kv hwrite
  obtain ⟨s, rest, hat, hstart, hwritten⟩ := initFromReader_written hparts load hlimit hchunk hwrite
  rw [hwritten] at hrun
  obtain ⟨data', s'', hload, hrun⟩ := bind_eq_ok.mp hrun
  obtain ⟨rfl, -⟩ := pure_eq_ok.mp hrun
  have hsections := sections_length hpresent
  rw [← hsections] at hload
  have hmemory := ((loadTensors_eq_ok hlimit hchunk hat
    (hsections ▸ Nat.dvd_trans (by decide) (dataBytes_dvd ctx.info))).mp ⟨s'', hload⟩).1
  exact {
    alignment := hparts.alignment
    kv := hparts.kv
    kvCount := hparts.kvCount
    infoCount := hparts.infoCount
    shape := hparts.shape
    type := hparts.type
    nbytes := hparts.nbytes
    padding := (dataStart_add ctx).mp (hlen ▸ hsize)
    size := hlen ▸ hlimit
    memory := hsections ▸ hmemory }

/-- A context that was built by calls, whose tensors are contiguous and have their data, is read back
from what is written if and only if it is readable. -/
theorem roundTrips_iff {cs : List GgufCall} {ctx : GgufContext} (hcalls : GgufContext.initEmpty.calls cs = some ctx)
    (hpresent : ∀ ti ∈ ctx.info, Present ti) {maxChunk : Nat} (hchunk : 1 ≤ maxChunk) (load : GgufLoad) :
    RoundTrips maxChunk load ctx ↔ Readable load ctx := by
  have hbuilt := GgufContext.calls_built GgufContext.initEmpty_built hcalls
  exact ⟨readable_of_roundTrips hbuilt hpresent hchunk, Readable.roundTrips hbuilt hpresent hchunk⟩

def zerosTensor : Gguf.GgmlTensor where
  name := literal "t"
  type := 0
  ne := { ne0 := 4 }
  nb := ⟨4, 16, 16, 16⟩
  data := some (List.replicate 16 0)
  name_lt := by decide
  name_cstr := by decide
  ne_nonneg := by decide

/-- A context with a value of `general.alignment` and a tensor. -/
def alignedCtx (alignment : UInt32) : GgufContext where
  kv := [{
    key := ggufKeyGeneralAlignment
    isArray := false
    type := .uint32
    data := putLE 4 alignment.toNat }]
  info := [{
    name := literal "t"
    type := 0
    ne := { ne0 := 4 }
    nb := ⟨4, 16, 16, 16⟩
    offset := 0
    data := some (List.replicate 16 0) }]

theorem size_uint32_ne : GgufType.uint32.size ≠ 0 := by decide

theorem uint32_bool_le (val : UInt32) (h : GgufType.uint32 = .bool) : val.toNat ≤ 1 := by cases h

def alignedCalls (alignment : UInt32) : List GgufCall :=
  [.setVal ggufKeyGeneralAlignment
      ⟨.uint32, alignment.toNat, size_uint32_ne, alignment.toNat_lt, uint32_bool_le alignment⟩,
    .addTensor zerosTensor]

theorem alignedCtx_present (alignment : UInt32) : ∀ ti ∈ (alignedCtx alignment).info, Present ti := by
  intro ti hti
  obtain rfl := mem_singleton.mp hti
  exact ⟨by decide +kernel, _, rfl, by decide +kernel⟩

theorem roundTrips_default : GgufContext.initEmpty.calls (alignedCalls 32) = some (alignedCtx 32) ∧
    RoundTrips 1 .alloc (alignedCtx 32) := by
  have hcalls : GgufContext.initEmpty.calls (alignedCalls 32) = some (alignedCtx 32) := by decide +kernel
  refine ⟨hcalls, (roundTrips_iff hcalls (alignedCtx_present 32) (Nat.le_refl 1) .alloc).mpr ?_⟩
  have hkv : ∀ kv ∈ (alignedCtx 32).kv, KvFits kv := by
    intro kv hkv
    obtain rfl := mem_singleton.mp hkv
    exact ⟨by decide +kernel, by decide, by decide, by decide +kernel, nofun⟩
  have hinfo : ∀ ti ∈ (alignedCtx 32).info, ShapeOk ti.ne ∧ TypeOk ti.type ti.ne ∧ (readBack ti).nbytes = ti.nbytes := by
    intro ti hti
    obtain rfl := mem_singleton.mp hti
    refine ⟨⟨?_, ?_, ?_, ?_, ?_, ?_, ?_⟩, ⟨?_, ?_, ?_, ?_⟩, ?_⟩ <;> decide +kernel
  exact {
    alignment := .inr (by decide +kernel)
    kv := hkv
    kvCount := by decide +kernel
    infoCount := by decide +kernel
    shape := fun ti hti => (hinfo ti hti).1
    type := fun ti hti => (hinfo ti hti).2.1
    nbytes := fun ti hti => (hinfo ti hti).2.2
    padding := nofun
    size := by decide +kernel
    memory := show _ < sizeLimit by decide +kernel }

/-- `gguf_set_val_u32(ctx, "general.alignment", 64)` does not reach the alignment of the writer. -/
theorem alignment_ignored : ∃ cs ctx, GgufContext.initEmpty.calls cs = some ctx ∧ (∀ ti ∈ ctx.info, Present ti) ∧
    ¬RoundTrips 1 .none ctx := by
  have hcalls : GgufContext.initEmpty.calls (alignedCalls 64) = some (alignedCtx 64) := by decide +kernel
  refine ⟨_, _, hcalls, alignedCtx_present 64, fun h => ?_⟩
  have hbuilt := GgufContext.calls_built GgufContext.initEmpty_built hcalls
  have hreadable := readable_of_roundTrips hbuilt (alignedCtx_present 64) (Nat.le_refl 1) h
  rcases hreadable.alignment with hidx | hval
  · exact absurd hidx (by decide +kernel)
  · exact absurd hval (by decide +kernel)

end LlamaCpp.GgufReader
