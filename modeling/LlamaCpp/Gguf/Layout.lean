import LlamaCpp.Gguf.Reader
import Mathlib.Tactic.Ring

/-!
# The layout of an accepted file

What the reader has checked when it returns a context (`TensorOk`, `Laid`), and what that says
about the tensors over the integers: the checks bound the numbers of elements and of bytes, but
not the product that `ggml_nbytes` forms for a type with blocks, nor the padded size.
-/

namespace LlamaCpp.GgufReader

open List Option

open Readers (bind_eq_ok)

/-! ## Steps that succeed -/

section Steps

variable {α : Type} {s s' : GgufReader}

theorem pure_eq_ok {a b : α} : (pure a : GgufM α) s = .ok b s' ↔ a = b ∧ s = s' := by
  change EStateM.Result.ok a s = .ok b s' ↔ _
  simp

theorem fault_ne_ok {e : GgufFault} {a : α} : fault e s ≠ .ok a s' := by simp [fault]

theorem reject_eq_ok {p : Prop} [Decidable p] {u : Unit} : reject p s = .ok u s' ↔ ¬p ∧ s = s' := by
  unfold reject
  split
  · next hp => exact iff_of_false fault_ne_ok fun h => h.1 hp
  · next hp =>
    rw [pure_eq_ok]
    exact ⟨fun h => ⟨hp, h.2⟩, fun h => ⟨rfl, h.2⟩⟩

theorem ensure_eq_ok {p : Prop} [Decidable p] {u : Unit} : ensure p s = .ok u s' ↔ p ∧ s = s' := by
  unfold ensure
  split
  · next hp =>
    rw [pure_eq_ok]
    exact ⟨fun h => ⟨hp, h.2⟩, fun h => ⟨rfl, h.2⟩⟩
  · next hp => exact iff_of_false fault_ne_ok fun h => hp h.1

theorem divI64_eq_ok {a b c : Int} : divI64 a b s = .ok c s' ↔ b ≠ 0 ∧ a / b = c ∧ s = s' := by
  unfold divI64
  split
  · next hb => exact iff_of_false fault_ne_ok fun h => h.1 hb
  · next hb =>
    rw [pure_eq_ok]
    exact ⟨fun h => ⟨hb, h⟩, fun h => h.2⟩

theorem mulI64_eq_ok {a b c : Int} :
    mulI64 a b s = .ok c s' ↔ (-2 ^ 63 ≤ a * b ∧ a * b ≤ int64Max) ∧ a * b = c ∧ s = s' := by
  unfold mulI64
  split
  · next hb =>
    rw [pure_eq_ok]
    exact ⟨fun h => ⟨hb, h⟩, fun h => h.2⟩
  · next hb => exact iff_of_false fault_ne_ok fun h => hb h.1

end Steps

/-! ## Sizes over the integers -/

/-- The number of elements. -/
def elements (ne : Dims) : Int := ne.ne0 * ne.ne1 * ne.ne2 * ne.ne3

/-- The size in bytes: all blocks of all rows. -/
def byteSize (type : Nat) (ne : Dims) : Nat :=
  ggmlTypeSize type * (ne.ne0.toNat / ggmlBlckSize type) * ne.ne1.toNat * ne.ne2.toNat * ne.ne3.toNat

/-- The least multiple of `n` that is not below `x`. -/
def padUp (x n : Nat) : Nat := (x + (n - 1)) / n * n

/-- What the reader has checked about a tensor. -/
structure TensorOk (ti : GgufTensorInfo) : Prop where
  ne0 : 0 ≤ ti.ne.ne0
  ne1 : 0 < ti.ne.ne1
  ne2 : 0 < ti.ne.ne2
  ne3 : 0 < ti.ne.ne3
  elements_lt : elements ti.ne < 2 ^ 63
  type_lt : ti.type < ggmlTypeCount
  blck : ggmlBlckSize ti.type ≠ 0
  row : ti.ne.ne0 % ggmlBlckSize ti.type = 0
  bytes : byteSize ti.type ti.ne < sizeLimit
  nb : ti.nb = .of ti.type ti.ne

/-- The types that have blocks have sizes. -/
theorem typeSize_pos {type : Nat} (h : ggmlBlckSize type ≠ 0) : 0 < ggmlTypeSize type := by
  have hall : ∀ t ∈ typeTraits, t.1 ≠ 0 → 0 < t.2 := by decide
  unfold ggmlBlckSize at h
  unfold ggmlTypeSize
  rcases Nat.lt_or_ge type typeTraits.length with hlt | hge
  · rw [getD_eq_getElem?_getD, getElem?_eq_getElem hlt] at h ⊢
    exact hall _ (getElem_mem hlt) h
  · rw [getD_eq_getElem?_getD, getElem?_eq_none hge] at h
    exact absurd rfl h

theorem byteSize_eq (type : Nat) {ne : Dims} (h0 : 0 ≤ ne.ne0) (h1 : 0 ≤ ne.ne1) (h2 : 0 ≤ ne.ne2)
    (h3 : 0 ≤ ne.ne3) (hblck : ggmlBlckSize type ≠ 0) (hrow : ne.ne0 % ggmlBlckSize type = 0) :
    (byteSize type ne : Int) = ggmlTypeSize type * (elements ne / ggmlBlckSize type) := by
  have hb : (ggmlBlckSize type : Int) ≠ 0 := by exact_mod_cast hblck
  obtain ⟨r, hr⟩ := Int.dvd_of_emod_eq_zero hrow
  have helems : elements ne = ggmlBlckSize type * (r * ne.ne1 * ne.ne2 * ne.ne3) := by
    unfold elements
    rw [hr]
    ring
  have hdiv : ((ne.ne0.toNat / ggmlBlckSize type : Nat) : Int) = r := by
    rw [Int.natCast_ediv, Int.toNat_of_nonneg h0, hr, Int.mul_ediv_cancel_left r hb]
  unfold byteSize
  rw [helems, Int.mul_ediv_cancel_left _ hb]
  push_cast
  rw [← Int.natCast_ediv, hdiv, Int.toNat_of_nonneg h1, Int.toNat_of_nonneg h2, Int.toNat_of_nonneg h3]
  ring

variable {n : Nat} {ti : GgufTensorInfo}

section Checks

variable {s s' : GgufReader} {ne : Dims}

theorem checkDims_ok (h1 : 0 ≤ ne.ne1) (h2 : 0 ≤ ne.ne2) (h3 : 0 ≤ ne.ne3)
    {u : Unit} (h : checkDims ne s = .ok u s') :
    0 < ne.ne1 ∧ 0 < ne.ne2 ∧ 0 < ne.ne3 ∧ elements ne < 2 ^ 63 ∧ s = s' := by
  unfold checkDims at h
  obtain ⟨q1, s1, hq1, h⟩ := bind_eq_ok.mp h
  obtain ⟨hne1, rfl, rfl⟩ := divI64_eq_ok.mp hq1
  obtain ⟨_, s1, hr, h⟩ := bind_eq_ok.mp h
  obtain ⟨hlt1, rfl⟩ := reject_eq_ok.mp hr
  obtain ⟨rows, s1, hm, h⟩ := bind_eq_ok.mp h
  obtain ⟨-, rfl, rfl⟩ := mulI64_eq_ok.mp hm
  obtain ⟨q2, s1, hq2, h⟩ := bind_eq_ok.mp h
  obtain ⟨hne2, rfl, rfl⟩ := divI64_eq_ok.mp hq2
  obtain ⟨_, s1, hr, h⟩ := bind_eq_ok.mp h
  obtain ⟨hlt2, rfl⟩ := reject_eq_ok.mp hr
  obtain ⟨planes, s1, hm, h⟩ := bind_eq_ok.mp h
  obtain ⟨-, rfl, rfl⟩ := mulI64_eq_ok.mp hm
  obtain ⟨q3, s1, hq3, h⟩ := bind_eq_ok.mp h
  obtain ⟨hne3, rfl, rfl⟩ := divI64_eq_ok.mp hq3
  obtain ⟨hlt3, rfl⟩ := reject_eq_ok.mp h
  have hpos3 : 0 < ne.ne3 := by omega
  refine ⟨by omega, by omega, hpos3, ?_, rfl⟩
  have hle : (ne.ne0 * ne.ne1 * ne.ne2) * ne.ne3 ≤ int64Max / ne.ne3 * ne.ne3 :=
    Int.mul_le_mul_of_nonneg_right (by omega) h3
  have hdiv := Int.ediv_mul_le int64Max hne3
  exact Int.lt_of_le_of_lt (Int.le_trans hle hdiv) (by decide)

theorem nelements_ok {n : Int} (h : nelements ne s = .ok n s') : n = elements ne ∧ s = s' := by
  unfold nelements at h
  obtain ⟨a, s1, ha, h⟩ := bind_eq_ok.mp h
  obtain ⟨-, rfl, rfl⟩ := mulI64_eq_ok.mp ha
  obtain ⟨b, s1, hb, h⟩ := bind_eq_ok.mp h
  obtain ⟨-, rfl, rfl⟩ := mulI64_eq_ok.mp hb
  obtain ⟨-, rfl, rfl⟩ := mulI64_eq_ok.mp h
  exact ⟨rfl, rfl⟩

theorem checkType_ok {code : Int} {type : Nat} (h0 : 0 ≤ ne.ne0) (h1 : 0 < ne.ne1) (h2 : 0 < ne.ne2)
    (h3 : 0 < ne.ne3) (h : checkType code ne s = .ok type s') :
    type < ggmlTypeCount ∧ ggmlBlckSize type ≠ 0 ∧ ne.ne0 % ggmlBlckSize type = 0 ∧
      byteSize type ne < sizeLimit ∧ s = s' := by
  unfold checkType at h
  obtain ⟨_, s1, hr, h⟩ := bind_eq_ok.mp h
  obtain ⟨hcode, rfl⟩ := reject_eq_ok.mp hr
  obtain ⟨_, s1, hr, h⟩ := bind_eq_ok.mp h
  obtain ⟨hrow, rfl⟩ := reject_eq_ok.mp hr
  obtain ⟨n, s1, hn, h⟩ := bind_eq_ok.mp h
  obtain ⟨rfl, rfl⟩ := nelements_ok hn
  obtain ⟨blocks, s1, hb, h⟩ := bind_eq_ok.mp h
  obtain ⟨hblck, rfl, rfl⟩ := divI64_eq_ok.mp hb
  obtain ⟨limit, s1, hl, h⟩ := bind_eq_ok.mp h
  obtain ⟨hsize, rfl, rfl⟩ := divI64_eq_ok.mp hl
  obtain ⟨_, s1, hr, h⟩ := bind_eq_ok.mp h
  obtain ⟨hle, rfl⟩ := reject_eq_ok.mp hr
  obtain ⟨rfl, rfl⟩ := pure_eq_ok.mp h
  rw [not_or, not_not] at hrow
  have hrow := hrow.2
  have hbytes := byteSize_eq code.toNat h0 (Int.le_of_lt h1) (Int.le_of_lt h2)
    (Int.le_of_lt h3) (by exact_mod_cast hblck) hrow
  refine ⟨by omega, by exact_mod_cast hblck, hrow, ?_, rfl⟩
  have hts : (0 : Int) ≤ ggmlTypeSize code.toNat := by omega
  have hmul := Int.mul_le_mul_of_nonneg_left (Int.not_lt.mp hle) hts
  have hdiv := @Int.mul_ediv_self_le ((sizeLimit - 1 : Nat) : Int) _ hsize
  rw [← hbytes] at hmul
  have hle : byteSize code.toNat ne ≤ sizeLimit - 1 := Int.ofNat_le.mp (Int.le_trans hmul hdiv)
  exact Nat.lt_of_le_of_lt hle (by decide)

variable {callback : Nat → Nat → List UInt8} {maxChunk : Nat} {infos : List GgufTensorInfo}

theorem readDim_ok {nDims j : Nat} {ne : Int} (h : readDim callback maxChunk nDims j s = .ok ne s') : 0 ≤ ne := by
  obtain ⟨a, s1, -, h⟩ := bind_eq_ok.mp h
  obtain ⟨_, s1, hr, h⟩ := bind_eq_ok.mp h
  obtain ⟨hneg, -⟩ := reject_eq_ok.mp hr
  obtain ⟨rfl, -⟩ := pure_eq_ok.mp h
  omega

theorem readDims_ok (h : readDims callback maxChunk s = .ok ne s') :
    0 ≤ ne.ne0 ∧ 0 ≤ ne.ne1 ∧ 0 ≤ ne.ne2 ∧ 0 ≤ ne.ne3 := by
  obtain ⟨nDims, s1, -, h⟩ := bind_eq_ok.mp h
  obtain ⟨_, s1, -, h⟩ := bind_eq_ok.mp h
  obtain ⟨ne0, s1, h0, h⟩ := bind_eq_ok.mp h
  obtain ⟨ne1, s1, h1, h⟩ := bind_eq_ok.mp h
  obtain ⟨ne2, s1, h2, h⟩ := bind_eq_ok.mp h
  obtain ⟨ne3, s1, h3, h⟩ := bind_eq_ok.mp h
  obtain ⟨rfl, -⟩ := pure_eq_ok.mp h
  exact ⟨readDim_ok h0, readDim_ok h1, readDim_ok h2, readDim_ok h3⟩

theorem readTensorInfo_ok
    (h : readTensorInfo callback maxChunk infos s = .ok ti s') : TensorOk ti := by
  obtain ⟨name, s1, -, h⟩ := bind_eq_ok.mp h
  obtain ⟨ne, s1, hne, h⟩ := bind_eq_ok.mp h
  obtain ⟨_, s1, hdims, h⟩ := bind_eq_ok.mp h
  obtain ⟨code, s1, -, h⟩ := bind_eq_ok.mp h
  obtain ⟨type, s1, htype, h⟩ := bind_eq_ok.mp h
  obtain ⟨offset, s1, -, h⟩ := bind_eq_ok.mp h
  obtain ⟨rfl, -⟩ := pure_eq_ok.mp h
  obtain ⟨h0, h1, h2, h3⟩ := readDims_ok hne
  obtain ⟨hp1, hp2, hp3, helems, -⟩ := checkDims_ok h1 h2 h3 hdims
  obtain ⟨hlt, hblck, hrow, hbytes, -⟩ := checkType_ok h0 hp1 hp2 hp3 htype
  exact ⟨h0, hp1, hp2, hp3, helems, hlt, hblck, hrow, hbytes, rfl⟩

theorem readInfos_ok {infos' : List GgufTensorInfo} (hinfos : ∀ ti ∈ infos, TensorOk ti)
    (h : readInfos callback maxChunk n infos s = .ok infos' s') : ∀ ti ∈ infos', TensorOk ti := by
  induction n generalizing infos s with
  | zero =>
    obtain ⟨rfl, -⟩ := pure_eq_ok.mp h
    exact hinfos
  | succ n ih =>
    obtain ⟨ti, s1, hti, h⟩ := bind_eq_ok.mp h
    refine ih (fun t ht => ?_) h
    rcases List.mem_append.mp ht with ht | ht
    · exact hinfos t ht
    · obtain rfl := mem_singleton.mp ht
      exact readTensorInfo_ok hti

/-- The value of an `uint32_t`. -/
theorem getValU32_lt {ctx : GgufContext} {id : Int} {v : Nat} (h : ctx.getValU32 id = some v) : v < 2 ^ 32 := by
  unfold GgufContext.getValU32 at h
  split at h
  · obtain ⟨kv, -, h⟩ := bind_eq_some_iff.mp h
    obtain ⟨ne, hne, h⟩ := bind_eq_some_iff.mp h
    split at h
    · next hone =>
      obtain rfl := some.inj h
      obtain ⟨rfl, htype⟩ := hone
      have hlen : kv.data.length = 4 := by
        unfold GgufKv.getNe at hne
        rw [htype, if_neg (by decide)] at hne
        split at hne
        · cases hne
        · next hmod =>
          split at hne
          · have hdiv := some.inj hne
            simp only [GgufType.size] at hmod hdiv
            omega
          · cases hne
      have hlt := Readers.getLE_lt kv.data
      rwa [hlen] at hlt
    · cases h
  · cases h

theorem findAlignment_ok {kvs : List GgufKv} {alignment : Nat}
    (h : findAlignment kvs s = .ok alignment s') : alignment.isPowerOfTwo ∧ alignment < 2 ^ 32 ∧ s = s' := by
  unfold findAlignment at h
  obtain ⟨a, s1, ha, h⟩ := bind_eq_ok.mp h
  obtain ⟨_, s2, hr, h⟩ := bind_eq_ok.mp h
  obtain ⟨hpow, rfl⟩ := reject_eq_ok.mp hr
  obtain ⟨rfl, rfl⟩ := pure_eq_ok.mp h
  rw [not_or, not_not] at hpow
  refine ⟨Nat.ne_zero_and_sub_one_eq_zero_iff_isPowerOfTwo.mp hpow, ?_⟩
  unfold alignmentOf at ha
  split at ha
  · obtain ⟨rfl, rfl⟩ := pure_eq_ok.mp ha
    exact ⟨by decide, rfl⟩
  · cases hval : ({ kv := kvs } : GgufContext).getValU32 (alignmentIdx kvs) with
    | none =>
      rw [hval] at ha
      exact absurd ha fault_ne_ok
    | some value =>
      rw [hval] at ha
      obtain ⟨rfl, rfl⟩ := pure_eq_ok.mp ha
      exact ⟨getValU32_lt hval, rfl⟩

/-- Where the reader has put the tensors, with the sizes that it computes. -/
def Laid (alignment : Nat) : List GgufTensorInfo → Nat → Nat → Prop
  | [], start, size => start = size
  | ti :: infos, start, size => ti.offset = start ∧ start + ggmlPad ti.nbytes alignment < sizeLimit ∧
      Laid alignment infos (start + ggmlPad ti.nbytes alignment) size

theorem dataSize_ok {alignment start size : Nat} (hstart : start < sizeLimit)
    (h : dataSize alignment infos start s = .ok size s') : Laid alignment infos start size := by
  induction infos generalizing start s with
  | nil => exact (pure_eq_ok.mp h).1
  | cons ti infos ih =>
    unfold dataSize at h
    obtain ⟨_, s1, hr, h⟩ := bind_eq_ok.mp h
    obtain ⟨hoff, rfl⟩ := reject_eq_ok.mp hr
    obtain ⟨_, s1, hr, h⟩ := bind_eq_ok.mp h
    obtain ⟨hle, rfl⟩ := reject_eq_ok.mp hr
    have hlt : start + ggmlPad ti.nbytes alignment < sizeLimit := by omega
    exact ⟨not_not.mp hoff, hlt, ih hlt h⟩

/-- What an accepted file comes to. -/
theorem initFromReader_ok {load : GgufLoad} {ctx : GgufContext}
    (h : initFromReader callback maxChunk load s = .ok ctx s') :
    ctx.alignment.isPowerOfTwo ∧ ctx.alignment < 2 ^ 32 ∧ (∀ ti ∈ ctx.info, TensorOk ti) ∧
      Laid ctx.alignment ctx.info 0 ctx.size := by
  unfold initFromReader at h
  obtain ⟨⟨version, nTensors, nKv⟩, s1, -, h⟩ := bind_eq_ok.mp h
  obtain ⟨kvs, s2, -, h⟩ := bind_eq_ok.mp h
  obtain ⟨_, s3, -, h⟩ := bind_eq_ok.mp h
  obtain ⟨alignment, s4, halign, h⟩ := bind_eq_ok.mp h
  obtain ⟨infos, s5, hinfos, h⟩ := bind_eq_ok.mp h
  obtain ⟨_, s6, -, h⟩ := bind_eq_ok.mp h
  obtain ⟨_, s7, -, h⟩ := bind_eq_ok.mp h
  obtain ⟨s8, s8', -, h⟩ := bind_eq_ok.mp h
  obtain ⟨size, s9, hsize, h⟩ := bind_eq_ok.mp h
  obtain ⟨data, s10, -, h⟩ := bind_eq_ok.mp h
  obtain ⟨rfl, -⟩ := pure_eq_ok.mp h
  obtain ⟨hpow, hlt, -⟩ := findAlignment_ok halign
  exact ⟨hpow, hlt, readInfos_ok (by simp) hinfos, dataSize_ok (by decide) hsize⟩

end Checks

/-! ## The machine's sizes -/

theorem and_mask {x k : Nat} (hx : x < 2 ^ 64) (hk : k ≤ 64) : x &&& (2 ^ 64 - 2 ^ k) = x / 2 ^ k * 2 ^ k := by
  apply Nat.eq_of_testBit_eq
  intro i
  have hpos : 0 < 2 ^ k := Nat.two_pow_pos k
  have hle : 2 ^ k - 1 < 2 ^ 64 := by
    have := Nat.pow_le_pow_right (n := 2) (by decide) hk
    omega
  have hmask : 2 ^ 64 - 2 ^ k = 2 ^ 64 - (2 ^ k - 1 + 1) := by omega
  rw [Nat.testBit_and, hmask, Nat.testBit_two_pow_sub_succ hle, Nat.testBit_two_pow_sub_one,
    Nat.testBit_mul_two_pow, Nat.testBit_div_two_pow]
  rcases Nat.lt_or_ge i 64 with hi | hi
  · rcases Nat.lt_or_ge i k with hik | hik
    · simp [hik, Nat.not_le.mpr hik]
    · simp [hi, hik, Nat.not_lt.mpr hik]
  · have hbit : x.testBit i = false :=
      Nat.testBit_lt_two_pow (Nat.lt_of_lt_of_le hx (Nat.pow_le_pow_right (by decide) hi))
    rcases Nat.lt_or_ge i k with hik | hik
    · simp [hbit, Nat.not_le.mpr hik]
    · simp [hbit, hik]

theorem ggmlPad_eq {x : Nat} (hn : n.isPowerOfTwo) (hlt : n < sizeLimit) :
    ggmlPad x n = (x + (n - 1)) % sizeLimit / n * n := by
  obtain ⟨k, rfl⟩ := hn
  have hk : k ≤ 64 := Nat.le_of_lt ((Nat.pow_lt_pow_iff_right (by decide)).mp hlt)
  have hpos : 0 < 2 ^ k := Nat.two_pow_pos k
  unfold ggmlPad
  rw [and_mask (Nat.mod_lt _ (by decide)) hk, Nat.add_sub_assoc hpos]

/-- The padded size is the padded size over the integers, unless it is too large. -/
theorem ggmlPad_eq_iff {x : Nat} (hn : n.isPowerOfTwo) (hlt : n < sizeLimit) (hx : x < sizeLimit) :
    ggmlPad x n ≤ padUp x n ∧ (ggmlPad x n = padUp x n ↔ x + (n - 1) < sizeLimit) := by
  have hpos : 0 < n := Nat.pos_of_isPowerOfTwo hn
  rw [ggmlPad_eq hn hlt, padUp]
  rcases Nat.lt_or_ge (x + (n - 1)) sizeLimit with hsmall | hbig
  · rw [Nat.mod_eq_of_lt hsmall]
    exact ⟨Nat.le_refl _, iff_of_true rfl hsmall⟩
  · have hmod : (x + (n - 1)) % sizeLimit = x + (n - 1) - sizeLimit := by
      rw [Nat.mod_eq_sub_mod hbig, Nat.mod_eq_of_lt (by omega)]
    have hstrict : (x + (n - 1)) % sizeLimit / n * n < (x + (n - 1)) / n * n := by
      have hzero : (x + (n - 1)) % sizeLimit / n = 0 := Nat.div_eq_of_lt (by omega)
      have hone : 0 < (x + (n - 1)) / n := Nat.div_pos (by omega) hpos
      rw [hzero, Nat.zero_mul]
      exact Nat.mul_pos hone hpos
    exact ⟨Nat.le_of_lt hstrict, iff_of_false (Nat.ne_of_lt hstrict) (Nat.not_lt.mpr hbig)⟩

/-- The block sizes are small. -/
theorem blckSize_le (type : Nat) : ggmlBlckSize type ≤ 256 := by
  have hall : ∀ t ∈ typeTraits, t.1 ≤ 256 := by decide
  unfold ggmlBlckSize
  rcases Nat.lt_or_ge type typeTraits.length with hlt | hge
  · rw [getD_eq_getElem?_getD, getElem?_eq_getElem hlt]
    exact hall _ (getElem_mem hlt)
  · rw [getD_eq_getElem?_getD, getElem?_eq_none hge]
    exact Nat.zero_le _

/-- The bytes of a row fit in `size_t` before they are divided by the block size. -/
def RowFits (type : Nat) (ne : Dims) : Prop :=
  ggmlBlckSize type ≠ 1 → ne.ne0.toNat * ggmlTypeSize type < sizeLimit

theorem rows_add (x b c d : Nat) (hb : 0 < b) (hc : 0 < c) (hd : 0 < d) :
    x + ((b - 1) * x + (c - 1) * (x * b) + (d - 1) * (x * b * c)) = x * b * c * d := by
  obtain ⟨b, rfl⟩ := Nat.exists_eq_succ_of_ne_zero (Nat.ne_of_gt hb)
  obtain ⟨c, rfl⟩ := Nat.exists_eq_succ_of_ne_zero (Nat.ne_of_gt hc)
  obtain ⟨d, rfl⟩ := Nat.exists_eq_succ_of_ne_zero (Nat.ne_of_gt hd)
  simp only [Nat.succ_eq_add_one, Nat.add_sub_cancel]
  ring

theorem le_mul_of_pos {x : Nat} (hn : 0 < n) : x ≤ x * n := Nat.le_mul_of_pos_right x hn

/-- The strides of a tensor whose bytes fit. -/
theorem strides_of {type : Nat} {ne : Dims} (h1 : 0 < ne.ne1.toNat) (h2 : 0 < ne.ne2.toNat)
    (h3 : 0 < ne.ne3.toNat) (hbytes : byteSize type ne < sizeLimit) :
    Strides.of type ne = {
      nb0 := ggmlTypeSize type
      nb1 := ggmlTypeSize type * (ne.ne0.toNat / ggmlBlckSize type)
      nb2 := ggmlTypeSize type * (ne.ne0.toNat / ggmlBlckSize type) * ne.ne1.toNat
      nb3 := ggmlTypeSize type * (ne.ne0.toNat / ggmlBlckSize type) * ne.ne1.toNat * ne.ne2.toNat } := by
  unfold byteSize at hbytes
  unfold Strides.of
  dsimp only
  generalize ggmlTypeSize type * (ne.ne0.toNat / ggmlBlckSize type) = x at hbytes ⊢
  have hc : x * ne.ne1.toNat * ne.ne2.toNat < sizeLimit := Nat.lt_of_le_of_lt (le_mul_of_pos h3) hbytes
  have hb : x * ne.ne1.toNat < sizeLimit := Nat.lt_of_le_of_lt (le_mul_of_pos h2) hc
  have ha : x < sizeLimit := Nat.lt_of_le_of_lt (le_mul_of_pos h1) hb
  rw [Nat.mod_eq_of_lt ha, Nat.mod_eq_of_lt hb, Nat.mod_eq_of_lt hc]

/-- `ggml_nbytes` is the size in bytes; for a type with blocks it is far too small where the first
product does not fit. -/
theorem nbytes_spec (h : TensorOk ti) :
    (RowFits ti.type ti.ne ∧ ti.nbytes = byteSize ti.type ti.ne) ∨
      (¬RowFits ti.type ti.ne ∧ ti.nbytes + 2 ^ 56 ≤ byteSize ti.type ti.ne) := by
  obtain ⟨h0, h1, h2, h3, -, -, hblck, hrow, hbytes, hnb⟩ := h
  have h1' : 0 < ti.ne.ne1.toNat := by omega
  have h2' : 0 < ti.ne.ne2.toNat := by omega
  have h3' : 0 < ti.ne.ne3.toNat := by omega
  unfold GgufTensorInfo.nbytes ggmlNbytes
  rw [hnb, strides_of h1' h2' h3' hbytes]
  have hpred : ∀ n : Int, (n - 1).toNat = n.toNat - 1 := by omega
  simp only [hpred]
  rcases Int.lt_or_eq_of_le h0 with hpos | hzero
  · rw [if_neg (by omega)]
    have hadd := rows_add (ggmlTypeSize ti.type * (ti.ne.ne0.toNat / ggmlBlckSize ti.type)) _ _ _ h1' h2' h3'
    unfold byteSize at hbytes ⊢
    unfold RowFits
    rw [← hadd] at hbytes ⊢
    generalize (ti.ne.ne1.toNat - 1) * _ + _ + _ = rest at hbytes ⊢
    have hdvd : ggmlBlckSize ti.type ∣ ti.ne.ne0.toNat := by
      obtain ⟨r, hr⟩ := Int.dvd_of_emod_eq_zero hrow
      exact Int.natCast_dvd_natCast.mp ⟨r, by rw [Int.toNat_of_nonneg h0, hr]⟩
    have hdiv : ti.ne.ne0.toNat * ggmlTypeSize ti.type / ggmlBlckSize ti.type =
        ggmlTypeSize ti.type * (ti.ne.ne0.toNat / ggmlBlckSize ti.type) := by
      rw [Nat.mul_comm, Nat.mul_div_assoc _ hdvd]
    split
    · next hone =>
      refine .inl ⟨fun hne => absurd hone hne, ?_⟩
      rw [hone, Nat.div_one] at hbytes ⊢
      have hsplit : ggmlTypeSize ti.type + (ti.ne.ne0.toNat - 1) * ggmlTypeSize ti.type =
          ggmlTypeSize ti.type * ti.ne.ne0.toNat := by
        obtain ⟨a, ha⟩ := Nat.exists_eq_succ_of_ne_zero (show ti.ne.ne0.toNat ≠ 0 by omega)
        rw [ha, Nat.succ_eq_add_one, Nat.add_sub_cancel]
        ring
      rw [hsplit, Nat.mod_eq_of_lt hbytes]
    · next hone =>
      rcases Nat.lt_or_ge (ti.ne.ne0.toNat * ggmlTypeSize ti.type) sizeLimit with hfits | hwraps
      · refine .inl ⟨fun _ => hfits, ?_⟩
        rw [Nat.mod_eq_of_lt hfits, hdiv, Nat.mod_eq_of_lt hbytes]
      · refine .inr ⟨fun hfits => Nat.not_le.mpr (hfits hone) hwraps, ?_⟩
        rw [← hdiv]
        generalize ti.ne.ne0.toNat * ggmlTypeSize ti.type = y at hwraps ⊢
        have hmod : y % sizeLimit + sizeLimit ≤ y := by
          have := Nat.mod_add_div y sizeLimit
          have hpos : 0 < y / sizeLimit := Nat.div_pos hwraps (by decide)
          have := Nat.le_mul_of_pos_right sizeLimit hpos
          omega
        have hsum := @Nat.div_add_div_le_add_div (y % sizeLimit) sizeLimit (ggmlBlckSize ti.type)
        have hle := Nat.div_le_div_right (c := ggmlBlckSize ti.type) hmod
        have hbig : 2 ^ 56 ≤ sizeLimit / ggmlBlckSize ti.type := by
          have := Nat.div_le_div_left (a := sizeLimit) (blckSize_le ti.type) (Nat.pos_of_ne_zero hblck)
          exact Nat.le_trans (by decide) this
        have := Nat.mod_le (y % sizeLimit / ggmlBlckSize ti.type + rest) sizeLimit
        omega
  · have hnone : byteSize ti.type ti.ne = 0 := by
      unfold byteSize
      rw [← hzero]
      simp
    rw [if_pos (.inl (by omega)), hnone]
    refine .inl ⟨fun _ => ?_, rfl⟩
    rw [← hzero]
    simp

/-! ## The layout -/

/-- The sizes of a tensor do not wrap: the bytes of a row before the division by the block size,
and the padded size. -/
def NoWrap (alignment : Nat) (ti : GgufTensorInfo) : Prop :=
  RowFits ti.type ti.ne ∧ byteSize ti.type ti.ne + (alignment - 1) < sizeLimit

def paddedSum (alignment : Nat) (infos : List GgufTensorInfo) : Nat :=
  (infos.map fun ti => padUp (byteSize ti.type ti.ne) alignment).sum

/-- The layout of the tensors over the integers. -/
structure ExactLayout (ctx : GgufContext) : Prop where
  elements_lt : ∀ ti ∈ ctx.info, elements ti.ne < 2 ^ 63
  bytes_lt : ∀ ti ∈ ctx.info, byteSize ti.type ti.ne < 2 ^ 64
  aligned : ∀ ti ∈ ctx.info, ctx.alignment ∣ ti.offset
  contained : ∀ ti ∈ ctx.info, ti.offset + byteSize ti.type ti.ne ≤ ctx.size
  ordered : ctx.info.Pairwise fun a b => a.offset + byteSize a.type a.ne ≤ b.offset
  size_eq : ctx.size = paddedSum ctx.alignment ctx.info

section Exact

variable {a start size : Nat} {infos : List GgufTensorInfo}

theorem padUp_lt (x : Nat) (hn : 0 < n) : padUp x n < x + n := by
  have := Nat.div_mul_le_self (x + (n - 1)) n
  unfold padUp
  omega

theorem le_padUp (x : Nat) (hn : 0 < n) : x ≤ padUp x n := by
  have hmod := Nat.mod_add_div (x + (n - 1)) n
  have hlt := Nat.mod_lt (x + (n - 1)) hn
  rw [Nat.mul_comm] at hmod
  unfold padUp
  omega

theorem dvd_padUp (x n : Nat) : n ∣ padUp x n := Nat.dvd_mul_left ..

/-- What the reader adds for a tensor is its padded size, or less. -/
theorem padded_spec (ha : a.isPowerOfTwo) (hlt : a < 2 ^ 32) (h : TensorOk ti) :
    (NoWrap a ti ∧ ggmlPad ti.nbytes a = padUp (byteSize ti.type ti.ne) a) ∨
      (¬NoWrap a ti ∧ ggmlPad ti.nbytes a < padUp (byteSize ti.type ti.ne) a) := by
  have hpos : 0 < a := Nat.pos_of_isPowerOfTwo ha
  have halimit : a < sizeLimit := Nat.lt_trans hlt (by decide)
  rcases nbytes_spec h with ⟨hfits, hbytes⟩ | ⟨hwraps, hbytes⟩
  · obtain ⟨hle, hiff⟩ := ggmlPad_eq_iff ha halimit h.bytes
    rw [hbytes]
    rcases Nat.lt_or_ge (byteSize ti.type ti.ne + (a - 1)) sizeLimit with hsmall | hbig
    · exact .inl ⟨⟨hfits, hsmall⟩, hiff.mpr hsmall⟩
    · exact .inr ⟨fun hno => Nat.not_le.mpr hno.2 hbig,
        Nat.lt_of_le_of_ne hle fun heq => Nat.not_le.mpr (hiff.mp heq) hbig⟩
  · have hlimit : ti.nbytes < sizeLimit := by
      have := h.bytes
      omega
    have hle := (ggmlPad_eq_iff ha halimit hlimit).1
    have hpad := padUp_lt ti.nbytes hpos
    have hbig := le_padUp (byteSize ti.type ti.ne) hpos
    exact .inr ⟨fun hno => hwraps hno.1, by omega⟩

/-- The sum is reached only if nothing wraps. -/
theorem laid_sum (ha : a.isPowerOfTwo) (hlt : a < 2 ^ 32) (hok : ∀ ti ∈ infos, TensorOk ti)
    (h : Laid a infos start size) : size ≤ start + paddedSum a infos ∧
      (size = start + paddedSum a infos → ∀ ti ∈ infos, NoWrap a ti) := by
  induction infos generalizing start with
  | nil =>
    obtain rfl : start = size := h
    exact ⟨Nat.le_refl _, fun _ _ hti => absurd hti not_mem_nil⟩
  | cons ti infos ih =>
    obtain ⟨-, -, hrest⟩ := h
    obtain ⟨hle, hall⟩ := ih (fun t ht => hok t (mem_cons_of_mem ti ht)) hrest
    have hsum : paddedSum a (ti :: infos) = padUp (byteSize ti.type ti.ne) a + paddedSum a infos := by
      simp [paddedSum]
    rcases padded_spec ha hlt (hok ti mem_cons_self) with ⟨hno, hpad⟩ | ⟨-, hpad⟩
    · refine ⟨by omega, fun heq t ht => ?_⟩
      rcases mem_cons.mp ht with rfl | ht
      · exact hno
      · exact hall (by omega) t ht
    · exact ⟨by omega, fun heq => by omega⟩

/-- Where nothing wraps, the tensors lie one behind the other. -/
theorem laid_exact (ha : a.isPowerOfTwo) (hlt : a < 2 ^ 32) (hok : ∀ ti ∈ infos, TensorOk ti)
    (hno : ∀ ti ∈ infos, NoWrap a ti) (hstart : a ∣ start) (h : Laid a infos start size) :
    size = start + paddedSum a infos ∧
      (∀ ti ∈ infos, a ∣ ti.offset ∧ start ≤ ti.offset ∧ ti.offset + byteSize ti.type ti.ne ≤ size) ∧
      infos.Pairwise fun t u => t.offset + byteSize t.type t.ne ≤ u.offset := by
  induction infos generalizing start with
  | nil =>
    obtain rfl : start = size := h
    exact ⟨rfl, fun _ hti => absurd hti not_mem_nil, .nil⟩
  | cons ti infos ih =>
    obtain ⟨hoff, -, hrest⟩ := h
    have hsum : paddedSum a (ti :: infos) = padUp (byteSize ti.type ti.ne) a + paddedSum a infos := by
      simp [paddedSum]
    have hpad : ggmlPad ti.nbytes a = padUp (byteSize ti.type ti.ne) a :=
      ((padded_spec ha hlt (hok ti mem_cons_self)).resolve_right
        fun hwraps => hwraps.1 (hno ti mem_cons_self)).2
    rw [hpad] at hrest
    have hle := le_padUp (byteSize ti.type ti.ne) (Nat.pos_of_isPowerOfTwo ha)
    obtain ⟨hsize, hmem, hpair⟩ := ih (fun t ht => hok t (mem_cons_of_mem ti ht))
      (fun t ht => hno t (mem_cons_of_mem ti ht)) (Nat.dvd_add hstart (dvd_padUp _ a)) hrest
    refine ⟨by omega, fun t ht => ?_, pairwise_cons.mpr ⟨fun t ht => ?_, hpair⟩⟩
    · rcases mem_cons.mp ht with rfl | ht
      · exact ⟨hoff ▸ hstart, Nat.le_of_eq hoff.symm, by omega⟩
      · obtain ⟨hdvd, hge, hend⟩ := hmem t ht
        exact ⟨hdvd, by omega, hend⟩
    · have hge := (hmem t ht).2.1
      omega

end Exact

/-- The layout of an accepted file is exact if and only if no size wraps. -/
theorem accepted_layout {callback : Nat → Nat → List UInt8} {maxChunk : Nat} {load : GgufLoad}
    {s s' : GgufReader} {ctx : GgufContext}
    (h : initFromReader callback maxChunk load s = .ok ctx s') :
    ExactLayout ctx ↔ ∀ ti ∈ ctx.info, NoWrap ctx.alignment ti := by
  obtain ⟨hpow, hlt, hok, hlaid⟩ := initFromReader_ok h
  constructor
  · intro hexact
    refine (laid_sum hpow hlt hok hlaid).2 ?_
    rw [Nat.zero_add]
    exact hexact.size_eq
  · intro hno
    obtain ⟨hsize, hmem, hpair⟩ := laid_exact hpow hlt hok hno (Nat.dvd_zero _) hlaid
    rw [Nat.zero_add] at hsize
    exact {
      elements_lt := fun ti hti => (hok ti hti).elements_lt
      bytes_lt := fun ti hti => (hok ti hti).bytes
      aligned := fun ti hti => (hmem ti hti).1
      contained := fun ti hti => (hmem ti hti).2.2
      ordered := hpair
      size_eq := hsize }

/-- A file with one tensor of one dimension. -/
def tensorFile (type ne0 : Nat) : List UInt8 :=
  ggufMagic ++ Readers.putLE 4 3 ++ Readers.putLE 8 1 ++ Readers.putLE 8 0 ++
    (Readers.putLE 8 1 ++ literal "t") ++ Readers.putLE 4 1 ++ Readers.putLE 8 ne0 ++
    Readers.putLE 4 type ++ Readers.putLE 8 0 ++ List.replicate 39 0

theorem accepted_layout_f32 : ∃ ctx s',
    initFromReader (ofBytes (tensorFile 0 4)) 16 .none (new (tensorFile 0 4)) = .ok ctx s' ∧
      (ExactLayout ctx ↔ ∀ ti ∈ ctx.info, NoWrap ctx.alignment ti) := by
  cases hrun : initFromReader (ofBytes (tensorFile 0 4)) 16 .none (new (tensorFile 0 4)) with
  | ok ctx s' => exact ⟨ctx, s', rfl, accepted_layout hrun⟩
  | error e s' =>
    have hok : (match initFromReader (ofBytes (tensorFile 0 4)) 16 .none (new (tensorFile 0 4)) with
      | .ok .. => true
      | .error .. => false) = true := by decide +kernel
    rw [hrun] at hok
    cases hok

/-- A tensor of `2 ^ 64 - 4` bytes is accepted as one of none. -/
theorem padded_size_wraps : ∃ ctx s',
    initFromReader (ofBytes (tensorFile 0 (2 ^ 62 - 1))) 16 .none (new (tensorFile 0 (2 ^ 62 - 1))) =
      .ok ctx s' ∧ ctx.size = 0 ∧ ¬ExactLayout ctx := by
  have hfile : (match initFromReader (ofBytes (tensorFile 0 (2 ^ 62 - 1))) 16 .none
      (new (tensorFile 0 (2 ^ 62 - 1))) with
    | .ok ctx _ => decide (ctx.size = 0 ∧ ctx.info.map (fun ti => (ti.type, ti.ne)) =
        [(0, { ne0 := 2 ^ 62 - 1 })])
    | .error .. => false) = true := by decide +kernel
  cases hrun : initFromReader (ofBytes (tensorFile 0 (2 ^ 62 - 1))) 16 .none
      (new (tensorFile 0 (2 ^ 62 - 1))) with
  | error e s' =>
    rw [hrun] at hfile
    cases hfile
  | ok ctx s' =>
    rw [hrun] at hfile
    obtain ⟨hsize, hinfo⟩ := of_decide_eq_true hfile
    refine ⟨ctx, s', rfl, hsize, fun hexact => ?_⟩
    obtain ⟨ti, hti, heq⟩ := List.mem_map.mp (hinfo ▸ mem_singleton_self _)
    have hend := hexact.contained ti hti
    obtain ⟨htype, hne⟩ := Prod.mk.inj heq
    rw [htype, hne, hsize] at hend
    exact absurd (Nat.le_trans (Nat.le_add_left _ _) hend) (by decide)

end LlamaCpp.GgufReader
