import LlamaCpp.Gguf.Layout
import Mathlib.Algebra.Order.Ring.Int

/-!
# Which files end the process

A run is `Safe` when it does not end with a fault other than `invalid`.  Every step of the reader
is safe whatever the bytes are, apart from two: the alignment is read as an `uint32_t` without a
test of its type (`AlignmentOk`), and the sizes of the dimensions are divided by one another before
a dimension of 0 is excluded (`DimsOk`).
-/

namespace LlamaCpp.GgufReader

open Readers (bind_eq_ok bind_eq_error bind_ok bind_error)

/-- The run returns, with a context or with `nullptr`. -/
def Safe {α : Type} (x : GgufM α) (s : GgufReader) : Prop := ∀ e s', x s = .error e s' → e = .invalid

/-! ## Rules -/

section Rules

variable {α β : Type} {x : GgufM α} {f : α → GgufM β} {s : GgufReader} {p : Prop}

theorem safe_pure (a : α) : Safe (pure a) s := fun _ _ h => nomatch h

theorem safe_self : Safe self s := fun _ _ h => nomatch h

theorem safe_invalid : Safe (fault .invalid : GgufM α) s := by
  intro e s' h
  obtain ⟨rfl, -⟩ : GgufFault.invalid = e ∧ s = s' := by simpa [fault] using h
  rfl

theorem safe_reject [Decidable p] : Safe (reject p) s := by
  unfold reject
  split
  · exact safe_invalid
  · exact safe_pure ()

theorem safe_ensure [Decidable p] (hp : p) : Safe (ensure p) s := by
  unfold ensure
  rw [if_pos hp]
  exact safe_pure ()

theorem Safe.bind (hx : Safe x s) (hf : ∀ a s', x s = .ok a s' → Safe (f a) s') : Safe (x >>= f) s := by
  intro e s' h
  rcases bind_eq_error.mp h with h | ⟨a, s1, hone, htwo⟩
  · exact hx e s' h
  · exact hf a s1 hone e s' htwo

theorem safe_bind_iff : Safe (x >>= f) s ↔ Safe x s ∧ ∀ a s', x s = .ok a s' → Safe (f a) s' := by
  constructor
  · intro h
    refine ⟨fun e s' hx => h e s' (bind_error hx), fun a s' hx e s'' hf => h e s'' ?_⟩
    rw [bind_ok hx]
    exact hf
  · rintro ⟨hx, hf⟩
    exact hx.bind hf

/-- A step that is safe everywhere, then a second one. -/
theorem Safe.seq (hx : Safe x s) (hf : ∀ a s, Safe (f a) s) : Safe (x >>= f) s :=
  hx.bind fun a s' _ => hf a s'

theorem not_safe_fault {e : GgufFault} (he : e ≠ .invalid) : ¬Safe (fault e : GgufM α) s :=
  fun h => he (h e s rfl)

theorem Safe.ite [Decidable p] {y : GgufM α} (hx : Safe x s) (hy : Safe y s) : Safe (if p then x else y) s := by
  split
  · exact hx
  · exact hy

end Rules

/-! ## Steps that are always safe -/

section Steps

variable {callback : Nat → Nat → List UInt8} {maxChunk : Nat} {s : GgufReader}
  (hcall : ∀ offset len, (callback offset len).length ≤ len)
include hcall

theorem readChunks_length {size offset fuel : Nat} {got : List UInt8} (hgot : got.length ≤ size) :
    (readChunks callback maxChunk size offset fuel got).1.length ≤ size := by
  induction fuel generalizing got with
  | zero => exact hgot
  | succ fuel ih =>
    have hlen := hcall (offset + got.length) (min maxChunk (size - got.length))
    have happend : (got ++ callback (offset + got.length) (min maxChunk (size - got.length))).length ≤ size := by
      rw [List.length_append]
      omega
    unfold readChunks
    split
    · exact hgot
    · split
      · exact hgot
      · dsimp only
        split
        · exact ih happend
        · exact happend

theorem safe_read (size : Nat) : Safe (read callback maxChunk size) s := by
  refine safe_self.bind fun s1 s2 h1 => ?_
  obtain ⟨rfl, rfl⟩ : s = s1 ∧ s = s2 := by simpa [self] using h1
  refine safe_reject.bind fun _ s3 h2 => ?_
  obtain ⟨hle, rfl⟩ := reject_eq_ok.mp h2
  have hraw : Safe (readRaw callback maxChunk size) s := by
    intro e s' h
    unfold readRaw at h
    split at h
    · cases h
    · have hlen : (readChunks callback maxChunk size s.dataOffset size []).1.length ≤ size :=
        readChunks_length hcall (Nat.zero_le size)
      dsimp only at h
      rw [if_neg (by omega)] at h
      cases h
  exact hraw.seq fun _ _ => safe_reject.seq fun _ _ => safe_pure _

theorem safe_readLE (size : Nat) : Safe (readLE callback maxChunk size) s :=
  (safe_read hcall size).seq fun _ _ => safe_pure _

theorem safe_readI64 : Safe (readI64 callback maxChunk) s :=
  (safe_readLE hcall 8).seq fun _ _ => safe_pure _

theorem safe_readString : Safe (readString callback maxChunk) s :=
  (safe_readLE hcall 8).seq fun _ _ => safe_reject.seq fun _ _ => safe_read hcall _

theorem safe_readValue (type : GgufType) : Safe (readValue callback maxChunk type) s :=
  Safe.ite ((safe_readLE hcall 1).seq fun _ _ => safe_pure _) (safe_read hcall _)

omit hcall in
theorem safe_readMany {α : Type} {x : GgufM α} (hx : ∀ s, Safe x s) (n : Nat) : Safe (readMany x n) s := by
  induction n generalizing s with
  | zero => exact safe_pure _
  | succ n ih => exact (hx s).seq fun _ _ => ih.seq fun _ _ => safe_pure _

omit hcall in
theorem safe_checkArray (n size : Nat) : Safe (checkArray n size) s :=
  safe_self.seq fun _ _ => safe_reject.seq fun _ _ => safe_reject.seq fun _ _ => safe_reject

theorem safe_readHeader : Safe (readHeader callback maxChunk) s :=
  (safe_checkArray 4 1).seq fun _ _ =>
  (safe_readMany (fun _ => safe_read hcall 1) 4).seq fun _ _ =>
  safe_reject.seq fun _ _ =>
  (safe_readLE hcall 4).seq fun _ _ =>
  safe_reject.seq fun _ _ =>
  safe_reject.seq fun _ _ =>
  (safe_readI64 hcall).seq fun _ _ =>
  safe_reject.seq fun _ _ =>
  (safe_readI64 hcall).seq fun _ _ =>
  safe_reject.seq fun _ _ => safe_pure _

theorem safe_readEmplace (key : List UInt8) (type : GgufType) (isArray : Bool) (n : Nat) :
    Safe (readEmplace callback maxChunk key type isArray n) s := by
  unfold readEmplace
  refine Safe.ite safe_invalid (Safe.ite (Safe.ite ?_ ?_) (Safe.ite ?_ ?_))
  · exact (safe_checkArray n 8).seq fun _ _ =>
      (safe_readMany (fun _ => safe_readString hcall) n).seq fun _ _ => safe_pure _
  · exact (safe_readString hcall).seq fun _ _ => safe_pure _
  · exact (safe_checkArray n _).seq fun _ _ =>
      (safe_readMany (fun _ => safe_readValue hcall type) n).seq fun _ _ => safe_pure _
  · exact (safe_readValue hcall type).seq fun _ _ => safe_pure _

theorem safe_readType : Safe (readType callback maxChunk) s :=
  (safe_readLE hcall 4).seq fun _ _ => safe_pure _

theorem safe_readKv (kvs : List GgufKv) : Safe (readKv callback maxChunk kvs) s := by
  refine (safe_readString hcall).seq fun key _ => safe_reject.seq fun _ _ =>
    safe_reject.seq fun _ _ => (safe_readType hcall).seq fun type _ => ?_
  split
  · refine (safe_readType hcall).seq fun type _ => (safe_readLE hcall 8).seq fun n _ => ?_
    split
    · exact safe_readEmplace hcall key _ true n
    · exact safe_invalid
  · exact safe_readEmplace hcall key _ false 1
  · exact safe_invalid

theorem safe_readKvs (n : Nat) (kvs : List GgufKv) : Safe (readKvs callback maxChunk n kvs) s := by
  induction n generalizing kvs s with
  | zero => exact safe_pure _
  | succ n ih => exact (safe_readKv hcall kvs).seq fun _ _ => ih _

theorem safe_readName (infos : List GgufTensorInfo) : Safe (readName callback maxChunk infos) s :=
  (safe_readString hcall).seq fun _ _ => safe_reject.seq fun _ _ => safe_reject.seq fun _ _ => safe_pure _

theorem safe_readDim (nDims j : Nat) : Safe (readDim callback maxChunk nDims j) s :=
  Safe.seq (Safe.ite (safe_readI64 hcall) (safe_pure 1)) fun _ _ =>
    safe_reject.seq fun _ _ => safe_pure _

theorem safe_readDims : Safe (readDims callback maxChunk) s :=
  (safe_readLE hcall 4).seq fun _ _ => safe_reject.seq fun _ _ =>
  (safe_readDim hcall _ 0).seq fun _ _ => (safe_readDim hcall _ 1).seq fun _ _ =>
  (safe_readDim hcall _ 2).seq fun _ _ => (safe_readDim hcall _ 3).seq fun _ _ => safe_pure _

omit hcall in
theorem safe_dataSize (alignment size : Nat) (infos : List GgufTensorInfo) :
    Safe (dataSize alignment infos size) s := by
  induction infos generalizing size s with
  | nil => exact safe_pure _
  | cons ti infos ih => exact safe_reject.seq fun _ _ => safe_reject.seq fun _ _ => ih _

omit hcall in
theorem safe_seekData (nTensors alignment : Nat) : Safe (seekData nTensors alignment) s := by
  refine Safe.ite (safe_self.seq fun s1 s2 => ?_) (safe_pure ())
  intro e s' h
  unfold seek at h
  dsimp only at h
  split at h
  · obtain ⟨rfl, -⟩ : GgufFault.invalid = e ∧ s2 = s' := by simpa using h
    rfl
  · cases h

end Steps

/-! ## The alignment -/

/-- The entry that says the alignment, if there is one, is one `uint32_t`. -/
def AlignmentOk (kvs : List GgufKv) : Prop :=
  alignmentIdx kvs = -1 ∨ (({ kv := kvs } : GgufContext).getValU32 (alignmentIdx kvs)).isSome

theorem safe_findAlignment {kvs : List GgufKv} {s : GgufReader} : Safe (findAlignment kvs) s ↔ AlignmentOk kvs := by
  have hrest : Safe (findAlignment kvs) s ↔ Safe (alignmentOf kvs) s :=
    safe_bind_iff.trans (and_iff_left fun _ _ _ => safe_reject.seq fun _ _ => safe_pure _)
  rw [hrest]
  unfold alignmentOf AlignmentOk
  split
  · next hnone => exact iff_of_true (safe_pure _) (.inl hnone)
  · next hsome =>
    cases hval : ({ kv := kvs } : GgufContext).getValU32 (alignmentIdx kvs) with
    | some alignment => exact iff_of_true (safe_pure _) (.inr rfl)
    | none =>
      refine iff_of_false (not_safe_fault (by decide)) ?_
      rintro (h | h)
      · exact hsome h
      · cases h

/-! ## The shape of a tensor -/

/-- A dimension is not 0 when the next test divides by it. -/
def DimsOk (ne : Dims) : Prop :=
  ne.ne1 ≠ 0 ∧ (ne.ne0 < int64Max / ne.ne1 →
    ne.ne2 ≠ 0 ∧ (ne.ne0 * ne.ne1 < int64Max / ne.ne2 → ne.ne3 ≠ 0))

section Shape

variable {s : GgufReader} {a b : Int}

theorem safe_divI64 : Safe (divI64 a b) s ↔ b ≠ 0 := by
  unfold divI64
  split
  · next hb => exact iff_of_false (not_safe_fault (by decide)) fun h => h hb
  · next hb => exact iff_of_true (safe_pure _) hb

theorem safe_mulI64 (h0 : 0 ≤ a * b) (hle : a * b ≤ int64Max) : Safe (mulI64 a b) s := by
  unfold mulI64
  rw [if_pos ⟨by omega, hle⟩]
  exact safe_pure _

/-- One test of the number of elements, and what follows it. -/
theorem safe_divI64_reject {rest : GgufM Unit} : Safe (do reject ((← divI64 int64Max b) ≤ a); rest) s ↔
      b ≠ 0 ∧ (a < int64Max / b → Safe rest s) := by
  rw [safe_bind_iff, safe_divI64]
  refine and_congr_right fun hb => ⟨fun h hlt => ?_, fun h q s' hq => ?_⟩
  · have hrest := h _ s (divI64_eq_ok.mpr ⟨hb, rfl, rfl⟩)
    exact (safe_bind_iff.mp hrest).2 () s (reject_eq_ok.mpr ⟨Int.not_le.mpr hlt, rfl⟩)
  · obtain ⟨-, rfl, rfl⟩ := divI64_eq_ok.mp hq
    refine safe_reject.bind fun _ s2 hr => ?_
    obtain ⟨hlt, rfl⟩ := reject_eq_ok.mp hr
    exact h (Int.not_le.mp hlt)

/-- A product below the quotient does not overflow. -/
theorem mul_le_int64Max (hb : 0 ≤ b) (hlt : a < int64Max / b) : a * b ≤ int64Max := by
  have hle : a * b ≤ int64Max / b * b := Int.mul_le_mul_of_nonneg_right (Int.le_of_lt hlt) hb
  rcases Int.lt_or_eq_of_le hb with hpos | hzero
  · exact Int.le_trans hle (Int.ediv_mul_le int64Max (by omega))
  · rw [← hzero, Int.mul_zero]
    decide

/-- A product that does not overflow is the next number. -/
theorem safe_mulI64_bind {f : Int → GgufM Unit} (h0 : 0 ≤ a * b) (hle : a * b ≤ int64Max) :
    Safe (mulI64 a b >>= f) s ↔ Safe (f (a * b)) s := by
  have hok : mulI64 a b s = .ok (a * b) s := mulI64_eq_ok.mpr ⟨⟨by omega, hle⟩, rfl, rfl⟩
  rw [safe_bind_iff, and_iff_right (safe_mulI64 h0 hle)]
  refine ⟨fun h => h _ s hok, fun h c s' hc => ?_⟩
  obtain ⟨-, rfl, rfl⟩ := mulI64_eq_ok.mp hc
  exact h

theorem safe_checkDims {ne : Dims} (h0 : 0 ≤ ne.ne0) (h1 : 0 ≤ ne.ne1) (h2 : 0 ≤ ne.ne2) :
    Safe (checkDims ne) s ↔ DimsOk ne := by
  have hrows := Int.mul_nonneg h0 h1
  unfold checkDims DimsOk
  rw [safe_divI64_reject]
  refine and_congr_right fun _ => imp_congr_right fun hlt1 => ?_
  rw [safe_mulI64_bind hrows (mul_le_int64Max h1 hlt1), safe_divI64_reject]
  refine and_congr_right fun _ => imp_congr_right fun hlt2 => ?_
  rw [safe_mulI64_bind (Int.mul_nonneg hrows h2) (mul_le_int64Max h2 hlt2), safe_bind_iff, safe_divI64]
  exact and_iff_left fun _ _ _ => safe_reject

/-- Behind the tests of the shape nothing overflows. -/
theorem safe_checkType {code : Int} {ne : Dims} (h0 : 0 ≤ ne.ne0) (h1 : 0 < ne.ne1) (h2 : 0 < ne.ne2)
    (h3 : 0 < ne.ne3) (helems : elements ne < 2 ^ 63) : Safe (checkType code ne) s := by
  have hrows : 0 ≤ ne.ne0 * ne.ne1 := Int.mul_nonneg h0 (Int.le_of_lt h1)
  have hplanes : 0 ≤ ne.ne0 * ne.ne1 * ne.ne2 := Int.mul_nonneg hrows (Int.le_of_lt h2)
  have hall : 0 ≤ ne.ne0 * ne.ne1 * ne.ne2 * ne.ne3 := Int.mul_nonneg hplanes (Int.le_of_lt h3)
  unfold elements at helems
  have hmax3 : ne.ne0 * ne.ne1 * ne.ne2 * ne.ne3 ≤ int64Max := Int.le_sub_one_of_lt helems
  have hmax2 : ne.ne0 * ne.ne1 * ne.ne2 ≤ int64Max := Int.le_trans (le_mul_of_one_le_right hplanes h3) hmax3
  have hmax1 : ne.ne0 * ne.ne1 ≤ int64Max := Int.le_trans (le_mul_of_one_le_right hrows h2) hmax2
  unfold checkType
  refine safe_reject.seq fun _ s1 => safe_reject.bind fun _ s2 hr => ?_
  obtain ⟨hrow, rfl⟩ := reject_eq_ok.mp hr
  rw [not_or] at hrow
  have hn : Safe (nelements ne) s1 :=
    (safe_mulI64 hrows hmax1).bind fun a s3 ha => by
      obtain ⟨-, rfl, rfl⟩ := mulI64_eq_ok.mp ha
      refine (safe_mulI64 hplanes hmax2).bind fun b s4 hb => ?_
      obtain ⟨-, rfl, rfl⟩ := mulI64_eq_ok.mp hb
      exact safe_mulI64 hall hmax3
  have hsize := typeSize_pos hrow.1
  exact hn.seq fun n s3 => (safe_divI64.mpr (by exact_mod_cast hrow.1)).bind fun blocks s4 _ =>
    (safe_divI64.mpr (by omega)).bind fun limit s5 _ => safe_reject.seq fun _ _ => safe_pure _

end Shape

/-! ## The run -/

section Run

variable (callback : Nat → Nat → List UInt8) (maxChunk : Nat)

/-- The shape that the reader finds for its next tensor passes. -/
def NextDimsOk (infos : List GgufTensorInfo) (s : GgufReader) : Prop :=
  ∀ name s1 ne s2, readName callback maxChunk infos s = .ok name s1 →
    readDims callback maxChunk s1 = .ok ne s2 → DimsOk ne

/-- The file has an alignment that can be read, and no tensor with a dimension of 0 where the
reader divides by it. -/
def Clean (s : GgufReader) : Prop :=
  ∀ version nTensors nKv s1 kvs s2,
    readHeader callback maxChunk s = .ok (version, nTensors, nKv) s1 →
    readKvs callback maxChunk nKv [] s1 = .ok kvs s2 →
    AlignmentOk kvs ∧ ∀ alignment s3, findAlignment kvs s2 = .ok alignment s3 →
      ∀ i < nTensors, ∀ infos s4, readInfos callback maxChunk i [] s3 = .ok infos s4 →
        NextDimsOk callback maxChunk infos s4

variable {callback maxChunk} (hcall : ∀ offset len, (callback offset len).length ≤ len) {n : Nat}
  {s : GgufReader} {infos : List GgufTensorInfo}

theorem readKvs_length {kvs out : List GgufKv} {s' : GgufReader}
    (h : readKvs callback maxChunk n kvs s = .ok out s') : out.length = kvs.length + n := by
  induction n generalizing kvs s with
  | zero =>
    obtain ⟨rfl, -⟩ := pure_eq_ok.mp h
    rfl
  | succ n ih =>
    obtain ⟨kv, s1, -, h⟩ := bind_eq_ok.mp h
    rw [ih h, List.length_append, List.length_singleton]
    omega

theorem readInfos_length {out : List GgufTensorInfo} {s' : GgufReader}
    (h : readInfos callback maxChunk n infos s = .ok out s') : out.length = infos.length + n := by
  induction n generalizing infos s with
  | zero =>
    obtain ⟨rfl, -⟩ := pure_eq_ok.mp h
    rfl
  | succ n ih =>
    obtain ⟨ti, s1, -, h⟩ := bind_eq_ok.mp h
    rw [ih h, List.length_append, List.length_singleton]
    omega

theorem ensure_ok {p : Prop} [Decidable p] (hp : p) : ensure p s = .ok () s :=
  ensure_eq_ok.mpr ⟨hp, rfl⟩

/-- Create an object in a memory that has the room. -/
theorem newObject_ok {pool curEnd size : Nat} (hdvd : 16 ∣ size)
    (hroom : curEnd + (ggmlObjectSize + size) ≤ pool) (hpool : pool < sizeLimit) :
    newObject pool curEnd size s = .ok (curEnd + ggmlObjectSize + size) s := by
  have hpad : ggmlPad size 16 = size := by
    rw [ggmlPad_eq ⟨4, rfl⟩ (by decide), Nat.mod_eq_of_lt]
    all_goals simp only [ggmlObjectSize, sizeLimit] at *
    all_goals omega
  unfold newObject
  rw [hpad]
  simp only [ggmlObjectSize, sizeLimit] at *
  rw [bind_ok (ensure_ok (by omega)), bind_ok (ensure_ok (by omega))]
  rfl

/-- Create tensors in a memory that has the room. -/
theorem newTensors_ok {pool curEnd : Nat} (hroom : curEnd + n * ggmlTensorOverhead ≤ pool)
    (hpool : pool < sizeLimit) : newTensors pool n curEnd s = .ok () s := by
  induction n generalizing curEnd with
  | zero => rfl
  | succ n ih =>
    rw [Nat.succ_mul, Nat.add_comm (n * _)] at hroom
    have hfirst : curEnd + ggmlTensorOverhead ≤ pool := by omega
    refine (bind_ok (newObject_ok (by decide) hfirst hpool)).trans (ih ?_)
    rwa [Nat.add_assoc, Nat.add_assoc, ← Nat.add_assoc ggmlObjectSize]

/-- The memory of `ggml_init` is what was asked for. -/
theorem poolSize_eq {memSize : Nat} (hpos : 0 < memSize) (hdvd : 16 ∣ memSize) (hlt : memSize < sizeLimit) :
    poolSize memSize = memSize := by
  unfold poolSize
  rw [if_neg (by omega), ggmlPad_eq ⟨4, rfl⟩ (by decide), Nat.mod_eq_of_lt]
  all_goals simp only [sizeLimit] at *
  all_goals omega

/-- The memory for tensors without data. -/
theorem newTensors_noAlloc (h : n * ggmlTensorOverhead < sizeLimit) :
    newTensors (poolSize (n * ggmlTensorOverhead)) n 0 s = .ok () s := by
  rcases Nat.eq_zero_or_pos n with rfl | hpos
  · rfl
  · have hdvd : 16 ∣ n * ggmlTensorOverhead := Nat.dvd_mul_left_of_dvd (by decide) n
    rw [poolSize_eq (Nat.mul_pos hpos (by decide)) hdvd h]
    exact newTensors_ok (by rw [Nat.zero_add]) h

theorem mul_lt_sizeLimit {k : Nat} (h : ¬(n ≠ 0 ∧ (sizeLimit - 1) / n < k)) : n * k < sizeLimit := by
  rcases Nat.eq_zero_or_pos n with rfl | hpos
  · rw [Nat.zero_mul]
    decide
  · have hle : k ≤ (sizeLimit - 1) / n := by omega
    have hmul := (Nat.le_div_iff_mul_le hpos).mp hle
    rw [Nat.mul_comm] at hmul
    exact Nat.lt_of_le_sub_one (by decide) hmul

theorem safe_loadTensors {nTensors size : Nat} {load : GgufLoad} (hload : load ≠ .alloc) :
    Safe (loadTensors callback maxChunk nTensors size load) s := by
  cases load with
  | none => exact safe_pure _
  | alloc => exact absurd rfl hload
  | noAlloc =>
    refine safe_reject.bind fun _ s1 hr => Safe.seq ?_ fun _ _ => safe_pure _
    obtain ⟨hfits, rfl⟩ := reject_eq_ok.mp hr
    intro e s' h
    rw [newTensors_noAlloc (mul_lt_sizeLimit hfits)] at h
    cases h

include hcall

theorem safe_readTensorInfo :
    Safe (readTensorInfo callback maxChunk infos) s ↔ NextDimsOk callback maxChunk infos s := by
  unfold readTensorInfo
  rw [safe_bind_iff, and_iff_right (safe_readName hcall infos)]
  constructor
  · intro h name s1 ne s2 hname hne
    obtain ⟨h0, h1, h2, -⟩ := readDims_ok hne
    exact (safe_checkDims h0 h1 h2).mp (safe_bind_iff.mp ((safe_bind_iff.mp (h name s1 hname)).2 ne s2 hne)).1
  · intro h name s1 hname
    refine (safe_readDims hcall).bind fun ne s2 hne => ?_
    obtain ⟨h0, h1, h2, h3⟩ := readDims_ok hne
    refine ((safe_checkDims h0 h1 h2).mpr (h name s1 ne s2 hname hne)).bind fun _ s3 hdims => ?_
    obtain ⟨hpos1, hpos2, hpos3, helems, -⟩ := checkDims_ok h1 h2 h3 hdims
    exact (safe_readLE hcall 4).seq fun _ _ =>
      (safe_checkType h0 hpos1 hpos2 hpos3 helems).bind fun _ _ _ =>
      (safe_readLE hcall 8).seq fun _ _ => safe_pure _

/-- The loop over the tensors, by the tensors that it reaches. -/
theorem safe_readInfos : Safe (readInfos callback maxChunk n infos) s ↔ ∀ i < n, ∀ infos' s',
      readInfos callback maxChunk i infos s = .ok infos' s' → NextDimsOk callback maxChunk infos' s' := by
  induction n generalizing infos s with
  | zero => exact iff_of_true (safe_pure _) fun i hi => absurd hi (Nat.not_lt_zero i)
  | succ n ih =>
    unfold readInfos
    rw [safe_bind_iff, safe_readTensorInfo hcall]
    constructor
    · rintro ⟨hfirst, hrest⟩ i hi infos' s' hrun
      cases i with
      | zero =>
        obtain ⟨rfl, rfl⟩ := pure_eq_ok.mp hrun
        exact hfirst
      | succ i =>
        obtain ⟨ti, s1, hti, hrun⟩ := bind_eq_ok.mp hrun
        exact ih.mp (hrest ti s1 hti) i (Nat.lt_of_succ_lt_succ hi) infos' s' hrun
    · intro h
      refine ⟨h 0 (Nat.succ_pos n) infos s rfl, fun ti s1 hti => ih.mpr fun i hi infos' s' hrun => ?_⟩
      exact h (i + 1) (Nat.succ_lt_succ hi) infos' s' ((bind_ok hti).trans hrun)

/-- The reader returns if and only if the file is clean. -/
theorem safe_iff {load : GgufLoad} (hload : load ≠ .alloc) {s : GgufReader} :
    Safe (initFromReader callback maxChunk load) s ↔ Clean callback maxChunk s := by
  unfold initFromReader Clean
  rw [safe_bind_iff, and_iff_right (safe_readHeader hcall)]
  constructor
  · intro h version nTensors nKv s1 kvs s2 hheader hkvs
    have hrest := (safe_bind_iff.mp (h (version, nTensors, nKv) s1 hheader)).2 kvs s2 hkvs
    have hlen : kvs.length = nKv := by simpa using readKvs_length hkvs
    obtain ⟨halign, hrest⟩ := safe_bind_iff.mp
      ((safe_bind_iff.mp hrest).2 () s2 (ensure_eq_ok.mpr ⟨hlen, rfl⟩))
    exact ⟨safe_findAlignment.mp halign, fun alignment s3 ha =>
      (safe_readInfos hcall).mp (safe_bind_iff.mp (hrest alignment s3 ha)).1⟩
  · rintro h ⟨version, nTensors, nKv⟩ s1 hheader
    refine (safe_readKvs hcall nKv []).bind fun kvs s2 hkvs => ?_
    obtain ⟨halign, hdims⟩ := h version nTensors nKv s1 kvs s2 hheader hkvs
    have hlen : kvs.length = nKv := by simpa using readKvs_length hkvs
    refine (safe_ensure hlen).bind fun _ s2' hens => ?_
    obtain ⟨-, rfl⟩ := ensure_eq_ok.mp hens
    refine (safe_findAlignment.mpr halign).bind fun alignment s3 ha => ?_
    refine ((safe_readInfos hcall).mpr (hdims alignment s3 ha)).bind fun infos s4 hinfos => ?_
    have hcount : infos.length = nTensors := by simpa using readInfos_length hinfos
    exact (safe_ensure hcount).bind fun _ s5 _ => (safe_seekData nTensors alignment).seq fun _ _ =>
      safe_self.seq fun _ _ => (safe_dataSize alignment 0 infos).seq fun _ _ =>
      (safe_loadTensors hload).seq fun _ _ => safe_pure _

end Run

theorem ofBytes_length (bytes : List UInt8) (offset len : Nat) : (ofBytes bytes offset len).length ≤ len :=
  List.length_take_le ..

theorem clean_of_f32 : Clean (ofBytes (tensorFile 0 4)) 16 (new (tensorFile 0 4)) := by
  refine (safe_iff (ofBytes_length _) (show GgufLoad.noAlloc ≠ .alloc by decide)).mp fun e s' h => ?_
  have hok : (match initFromReader (ofBytes (tensorFile 0 4)) 16 .noAlloc (new (tensorFile 0 4)) with
    | .ok .. => true
    | .error .. => false) = true := by decide +kernel
  rw [h] at hok
  cases hok

/-- A file with one tensor of 0 rows of 4 elements. -/
def noRowsFile : List UInt8 :=
  ggufMagic ++ Readers.putLE 4 3 ++ Readers.putLE 8 1 ++ Readers.putLE 8 0 ++
    (Readers.putLE 8 1 ++ literal "t") ++ Readers.putLE 4 2 ++ Readers.putLE 8 4 ++ Readers.putLE 8 0 ++
    Readers.putLE 4 0 ++ Readers.putLE 8 0

/-- `INT64_MAX / info.t.ne[1]` with `info.t.ne[1] = 0`. -/
theorem zero_dim_divides :
    ¬Safe (initFromReader (ofBytes noRowsFile) 1 .noAlloc) (new noRowsFile) := by
  intro h
  have hfault : (match initFromReader (ofBytes noRowsFile) 1 .noAlloc (new noRowsFile) with
    | .ok .. => false
    | .error e _ => decide (e = .divisionByZero)) = true := by decide +kernel
  cases hrun : initFromReader (ofBytes noRowsFile) 1 .noAlloc (new noRowsFile) with
  | ok ctx s' =>
    rw [hrun] at hfault
    cases hfault
  | error e s' =>
    rw [hrun] at hfault
    rw [of_decide_eq_true hfault] at hrun
    exact absurd (h _ s' hrun) (by decide)

end LlamaCpp.GgufReader
