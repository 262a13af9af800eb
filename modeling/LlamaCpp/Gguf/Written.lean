import LlamaCpp.Gguf.Safety
import LlamaCpp.Gguf.Calls

/-!
# Reading back what was written

`Reads bytes x xs a`: in a reader of the buffer `bytes` that has `xs` in front of it, `x` takes `xs`
and returns `a`.  It composes along the format, and every part that the writer writes is read back,
when its sizes are within the limits of the reader (`KvFits`, `ShapeOk`, `TypeOk`).
-/

namespace LlamaCpp.GgufReader

open List Option

open Readers (bind_eq_ok bind_ok putLE getLE getLE_putLE putLE_length)

/-- `rest` is what is in front of the reader. -/
structure At (bytes : List UInt8) (s : GgufReader) (rest : List UInt8) : Prop where
  drop : bytes.drop s.dataOffset = rest
  offset : s.dataOffset + rest.length = bytes.length
  remain : s.nbytesRemain = rest.length

/-- `x` takes the bytes `xs` and returns `a`. -/
def Reads {α : Type} (bytes : List UInt8) (x : GgufM α) (xs : List UInt8) (a : α) : Prop :=
  ∀ s rest, At bytes s (xs ++ rest) → ∃ s', x s = .ok a s' ∧ At bytes s' rest

section Rules

variable {α β : Type} {bytes xs ys : List UInt8} {x : GgufM α} {f : α → GgufM β} {a : α} {b : β}

theorem reads_pure (a : α) : Reads bytes (pure a) [] a := fun s _ h => ⟨s, rfl, h⟩

theorem Reads.bind (hx : Reads bytes x xs a) (hf : Reads bytes (f a) ys b) : Reads bytes (x >>= f) (xs ++ ys) b := by
  intro s rest h
  rw [append_assoc] at h
  obtain ⟨s1, hone, h1⟩ := hx s _ h
  obtain ⟨s2, htwo, h2⟩ := hf s1 rest h1
  exact ⟨s2, (bind_ok hone).trans htwo, h2⟩

/-- A second step that takes nothing. -/
theorem Reads.last (hx : Reads bytes x xs a) (hf : Reads bytes (f a) [] b) : Reads bytes (x >>= f) xs b := by
  have h := hx.bind hf
  rwa [append_nil] at h

theorem Reads.map (hx : Reads bytes x xs a) {g : α → β} : Reads bytes (x >>= fun a => pure (g a)) xs (g a) :=
  hx.last (reads_pure _)

theorem reject_ok {p : Prop} [Decidable p] {s : GgufReader} (hp : ¬p) : reject p s = .ok () s :=
  reject_eq_ok.mpr ⟨hp, rfl⟩

theorem Reads.test {p : Prop} [Decidable p] {k : Unit → GgufM β} (hp : ¬p) (hk : Reads bytes (k ()) xs b) :
    Reads bytes (reject p >>= k) xs b := by
  intro s rest h
  obtain ⟨s1, hrun, h1⟩ := hk s rest h
  exact ⟨s1, (bind_ok (reject_ok hp)).trans hrun, h1⟩

theorem reads_readMany {as : List α} {put : α → List UInt8} (h : ∀ a ∈ as, Reads bytes x (put a) a) :
    Reads bytes (readMany x as.length) (as.flatMap put) as := by
  induction as with
  | nil => exact reads_pure []
  | cons a as ih =>
    have hrest := ih fun b hb => h b (mem_cons_of_mem a hb)
    exact (h a mem_cons_self).bind hrest.map

end Rules

/-! ## Bytes, numbers and strings -/

section Bytes

variable {bytes : List UInt8} {maxChunk : Nat} (hlimit : bytes.length < sizeLimit) (hchunk : 1 ≤ maxChunk)

/-- The chunks together are the bytes that were asked for. -/
theorem readChunks_ofBytes {size offset fuel k : Nat} (hlimit : bytes.length < sizeLimit)
    (hchunk : 1 ≤ maxChunk) (hsize : offset + size ≤ bytes.length) (hk : k ≤ size) (hfuel : size ≤ fuel + k) :
    readChunks (ofBytes bytes) maxChunk size offset fuel ((bytes.drop offset).take k) =
      ((bytes.drop offset).take size, false) := by
  have hlen : ∀ j ≤ size, ((bytes.drop offset).take j).length = j := fun j hj => by
    rw [length_take, length_drop]
    omega
  induction fuel generalizing k with
  | zero =>
    obtain rfl : k = size := by omega
    rfl
  | succ fuel ih =>
    unfold readChunks
    rw [hlen k hk]
    split
    · obtain rfl : k = size := by omega
      rfl
    · next hlt =>
      rw [if_neg (by omega)]
      have hdata : ofBytes bytes (offset + k) (min maxChunk (size - k)) =
          ((bytes.drop offset).drop k).take (min maxChunk (size - k)) := by
        rw [ofBytes, drop_drop]
      have hdataLen : (((bytes.drop offset).drop k).take (min maxChunk (size - k))).length =
          min maxChunk (size - k) := by
        rw [length_take, length_drop, length_drop]
        omega
      dsimp only
      rw [hdata, if_pos hdataLen, ← take_add]
      exact ih (by omega) (by omega)

include hlimit hchunk

theorem reads_read (xs : List UInt8) : Reads bytes (read (ofBytes bytes) maxChunk xs.length) xs xs := by
  intro s rest ⟨hdrop, hoff, hremain⟩
  rw [length_append] at hoff hremain
  have htake : (bytes.drop s.dataOffset).take xs.length = xs := by rw [hdrop, take_left]
  have hraw : ∃ s', readRaw (ofBytes bytes) maxChunk xs.length s = .ok xs s' ∧ At bytes s' rest := by
    unfold readRaw
    split
    · next hzero =>
      obtain rfl := length_eq_zero_iff.mp hzero
      exact ⟨s, rfl, hdrop, by simpa using hoff, by simpa using hremain⟩
    · have hchunks : readChunks (ofBytes bytes) maxChunk xs.length s.dataOffset xs.length [] = (xs, false) := by
        have h := @readChunks_ofBytes bytes maxChunk xs.length s.dataOffset xs.length 0 hlimit hchunk (by omega)
          (Nat.zero_le _) (Nat.le_refl _)
        rwa [take_zero, htake] at h
      rw [hchunks]
      dsimp only
      rw [if_neg (by omega)]
      refine ⟨_, rfl, ?_, ?_, ?_⟩
      · rw [Nat.mod_eq_of_lt (by omega), ← drop_drop, hdrop, drop_left]
      · rw [Nat.mod_eq_of_lt (by omega), Nat.add_assoc]
        exact hoff
      · rw [if_neg (by decide), hremain, Nat.add_sub_cancel_left]
  obtain ⟨s', hrun, hat⟩ := hraw
  refine ⟨s', ?_, hat⟩
  unfold read
  have hself : self s = .ok s s := rfl
  rw [bind_ok hself, bind_ok (reject_ok (by omega)), bind_ok hrun, bind_ok (reject_ok (by omega))]
  rfl

theorem reads_readLE {k n : Nat} (hn : n < 256 ^ k) : Reads bytes (readLE (ofBytes bytes) maxChunk k) (putLE k n) n := by
  have h := (reads_read hlimit hchunk (putLE k n)).map (g := getLE)
  rwa [putLE_length, getLE_putLE hn] at h

theorem reads_readI64_nat {n : Nat} (hn : n < 2 ^ 63) :
    Reads bytes (readI64 (ofBytes bytes) maxChunk) (putLE 8 n) n := by
  have hsigned : toSigned 64 n = n := Int.bmod_eq_of_le (by omega) (by omega)
  have h := (reads_readLE hlimit hchunk (show n < 256 ^ 8 by omega)).map (g := toSigned 64)
  rwa [hsigned] at h

theorem reads_readI64 {n : Int} (h0 : 0 ≤ n) (hn : n ≤ int64Max) :
    Reads bytes (readI64 (ofBytes bytes) maxChunk) (putI64 n) n := by
  have hmax : n ≤ 2 ^ 63 - 1 := hn
  have hmod : n % 2 ^ 64 = n := Int.emod_eq_of_lt h0 (by omega)
  have h := reads_readI64_nat hlimit hchunk (show n.toNat < 2 ^ 63 by omega)
  rw [Int.toNat_of_nonneg h0] at h
  unfold putI64
  rwa [hmod]

theorem reads_readString {xs : List UInt8} (hlen : xs.length ≤ ggufMaxLength) :
    Reads bytes (readString (ofBytes bytes) maxChunk) (putString xs) xs :=
  (reads_readLE hlimit hchunk (Nat.lt_of_le_of_lt hlen (by decide))).bind
    (Reads.test (Nat.not_lt.mpr hlen) (reads_read hlimit hchunk xs))

end Bytes

/-! ## Key-value pairs -/

/-- The sizes of a pair are within the limits of the reader, and its values of type `bool` are 0 or 1. -/
structure KvFits (kv : GgufKv) : Prop where
  key : kv.key.length ≤ ggufMaxLength
  strings : ∀ s ∈ kv.dataString, s.length ≤ ggufMaxLength
  stringCount : kv.dataString.length ≤ ggufMaxLength
  count : kv.data.length / kv.type.size ≤ ggufMaxLength
  bools : kv.type = .bool → ∀ byte ∈ kv.data, byte = 0 ∨ byte = 1

/-- The bytes of the type, with the number of values of an array. -/
def typeBytes (kv : GgufKv) (ne : Nat) : List UInt8 :=
  if kv.isArray then putLE 4 GgufType.array.code ++ putLE 4 kv.type.code ++ putLE 8 ne
  else putLE 4 kv.type.code

theorem size_le (type : GgufType) : type.size ≤ 8 := by cases type <;> decide

theorem ne_of_size {type : GgufType} (h : type.size ≠ 0) : type ≠ .string ∧ type ≠ .array := by
  constructor <;> rintro rfl <;> exact h rfl

variable {kv : GgufKv}

/-- A `bool` is written as itself if it is 0 or 1. -/
theorem writeValues_data {ne : Nat} (hsize : kv.type.size ≠ 0)
    (hbool : kv.type = .bool → ne = kv.data.length ∧ ∀ byte ∈ kv.data, byte = 0 ∨ byte = 1) :
    kv.writeValues ne = some kv.data := by
  unfold GgufKv.writeValues
  split
  · next h => exact absurd h (ne_of_size hsize).2
  · next h => exact absurd h (ne_of_size hsize).1
  · next h =>
    obtain ⟨rfl, hall⟩ := hbool h
    rw [take_length]
    refine congrArg some ?_
    conv => rhs; rw [← List.map_id kv.data]
    refine map_congr_left fun byte hbyte => ?_
    rcases hall byte hbyte with rfl | rfl <;> rfl
  · rfl

theorem write_made (h : kv.Made) (hbools : kv.type = .bool → ∀ byte ∈ kv.data, byte = 0 ∨ byte = 1) :
    ∃ ne, kv.getNe = some ne ∧
      kv.write = some (putString kv.key ++ typeBytes kv ne ++ (kv.dataString.flatMap putString ++ kv.data)) := by
  have hwrite : ∀ {ne values}, kv.getNe = some ne → kv.writeValues ne = some values →
      kv.write = some (putString kv.key ++ typeBytes kv ne ++ values) := by
    intro ne values hne hvalues
    unfold GgufKv.write
    rw [hne, bind_eq_bind, bind_some, hvalues]
    rfl
  cases h with
  | value key val =>
    have hne := ne_of_size val.size_ne
    have hcount : GgufKv.getNe ⟨key, false, val.type, putLE val.type.size val.bits, []⟩ = some 1 := by
      unfold GgufKv.getNe
      simp [hne.1, val.size_ne, Nat.div_self (Nat.pos_of_ne_zero val.size_ne)]
    refine ⟨1, hcount, hwrite hcount (writeValues_data val.size_ne fun htype => ⟨?_, hbools htype⟩)⟩
    have hbool : val.type = .bool := htype
    simp [hbool, GgufType.size]
  | string key val =>
    refine ⟨1, rfl, hwrite rfl ?_⟩
    simp [GgufKv.writeValues]
  | array key type data hsize hdvd =>
    have hne := ne_of_size hsize
    have hcount : GgufKv.getNe ⟨key, true, type, data, []⟩ = some (data.length / type.size) := by
      unfold GgufKv.getNe
      simp [hne.1, hsize, hdvd]
    refine ⟨_, hcount, hwrite hcount (writeValues_data hsize fun htype => ⟨?_, hbools htype⟩)⟩
    have hbool : type = .bool := htype
    simp [hbool, GgufType.size]
  | strings key data =>
    refine ⟨data.length, rfl, hwrite rfl ?_⟩
    simp [GgufKv.writeValues]

theorem getNe_le {ne : Nat} (hfits : KvFits kv) (hne : kv.getNe = some ne) :
    ne ≤ ggufMaxLength ∧ (kv.isArray = false → ne = 1) := by
  unfold GgufKv.getNe at hne
  split at hne
  · obtain ⟨hone, hne⟩ := ite_none_right_eq_some.mp hne
    obtain rfl := some.inj hne
    exact ⟨hfits.stringCount, fun harray => hone.resolve_left (by simp [harray])⟩
  · split at hne
    · cases hne
    · obtain ⟨hone, hne⟩ := ite_none_right_eq_some.mp hne
      obtain rfl := some.inj hne
      exact ⟨hfits.count, fun harray => hone.resolve_left (by simp [harray])⟩

section Pairs

variable {bytes : List UInt8} {maxChunk : Nat} (hlimit : bytes.length < sizeLimit) (hchunk : 1 ≤ maxChunk)
  {xs : List UInt8}

/-- The tests in front of an array pass when its values are there. -/
theorem Reads.array {α : Type} {x : GgufM α} {a : α} {n size : Nat} (hx : Reads bytes x xs a)
    (hn : n ≤ ggufMaxLength) (hpos : 0 < size) (hsize : size ≤ 8) (hlen : n * size ≤ xs.length) :
    Reads bytes (checkArray n size >>= fun _ => x) xs a := by
  intro s rest h
  obtain ⟨s1, hrun, h1⟩ := hx s rest h
  have hquot : n ≤ (sizeLimit - 1) / size := by
    refine (Nat.le_div_iff_mul_le hpos).mpr ?_
    have hmul := Nat.mul_le_mul hn hsize
    exact Nat.le_trans hmul (by decide)
  have hremain := h.remain
  rw [length_append] at hremain
  have hself : self s = .ok s s := rfl
  have hcheck : checkArray n size s = .ok () s := by
    unfold checkArray
    rw [bind_ok hself, bind_ok (reject_ok (Nat.not_lt.mpr hn)), bind_ok (reject_ok (Nat.not_lt.mpr hquot))]
    exact reject_ok (by omega)
  exact ⟨s1, (bind_ok hcheck).trans hrun, h1⟩

include hlimit hchunk

theorem reads_readValue {type : GgufType} (hlen : xs.length = type.size)
    (hbool : type = .bool → ∀ byte ∈ xs, byte = 0 ∨ byte = 1) :
    Reads bytes (readValue (ofBytes bytes) maxChunk type) xs xs := by
  unfold readValue
  split
  · next htype =>
    subst htype
    obtain ⟨byte, rfl⟩ := length_eq_one_iff.mp hlen
    have hcase : ∀ n, n = 0 ∨ n = 1 → Reads bytes (readBool (ofBytes bytes) maxChunk) (putLE 1 n) (putLE 1 n) := by
      intro n hn
      have hread := (reads_readLE (k := 1) hlimit hchunk (show n < 256 ^ 1 by omega)).map
        (g := fun n => [if n ≠ 0 then (1 : UInt8) else 0])
      rcases hn with rfl | rfl <;> exact hread
    rcases hbool rfl byte mem_cons_self with rfl | rfl
    · exact hcase 0 (.inl rfl)
    · exact hcase 1 (.inr rfl)
  · rw [← hlen]
    exact reads_read hlimit hchunk xs

/-- The values of an array, one after the other. -/
theorem reads_values {type : GgufType} {n : Nat} (hlen : xs.length = n * type.size)
    (hbool : type = .bool → ∀ byte ∈ xs, byte = 0 ∨ byte = 1) :
    ∃ values, Reads bytes (readMany (readValue (ofBytes bytes) maxChunk type) n) xs values ∧ values.flatten = xs := by
  induction n generalizing xs with
  | zero =>
    obtain rfl := length_eq_zero_iff.mp (hlen.trans (Nat.zero_mul _))
    exact ⟨[], reads_pure [], rfl⟩
  | succ n ih =>
    rw [Nat.succ_mul] at hlen
    obtain ⟨values, hread, hflat⟩ := @ih (xs.drop type.size) (by rw [length_drop]; omega)
      fun htype byte hbyte => hbool htype byte (mem_of_mem_drop hbyte)
    have hfirst : Reads bytes (readValue (ofBytes bytes) maxChunk type) (xs.take type.size) (xs.take type.size) :=
      reads_readValue hlimit hchunk (by rw [length_take]; omega)
        fun htype byte hbyte => hbool htype byte (mem_of_mem_take hbyte)
    refine ⟨xs.take type.size :: values, ?_, ?_⟩
    · have hboth : Reads bytes (readMany (readValue (ofBytes bytes) maxChunk type) (n + 1))
          (xs.take type.size ++ xs.drop type.size) (xs.take type.size :: values) := hfirst.bind hread.map
      rwa [take_append_drop] at hboth
    · rw [flatten_cons, hflat, take_append_drop]

theorem reads_readType (type : GgufType) :
    Reads bytes (readType (ofBytes bytes) maxChunk) (putLE 4 type.code) (some type) := by
  have h := (reads_readLE hlimit hchunk type.code_lt).map (g := GgufType.ofCode)
  rwa [GgufType.ofCode_code] at h

theorem reads_readEmplace {kv : GgufKv} {ne : Nat} (hmade : kv.Made) (hfits : KvFits kv)
    (hne : kv.getNe = some ne) :
    Reads bytes (readEmplace (ofBytes bytes) maxChunk kv.key kv.type kv.isArray ne)
      (kv.dataString.flatMap putString ++ kv.data) kv := by
  cases hmade with
  | value key val =>
    have htype := ne_of_size val.size_ne
    unfold readEmplace
    rw [if_neg htype.2, if_neg htype.1, if_neg (by simp)]
    exact (reads_readValue hlimit hchunk (putLE_length ..) hfits.bools).map
      (g := fun value => ({ key := key, isArray := false, type := val.type, data := value } : GgufKv))
  | string key val =>
    unfold readEmplace
    rw [if_neg (by simp), if_pos rfl, if_neg (by simp)]
    have h := (reads_readString hlimit hchunk (hfits.strings val mem_cons_self)).map
      (g := fun string => ({ key := key, isArray := false, type := .string, dataString := [string] } : GgufKv))
    simpa using h
  | array key type data hsize hdvd =>
    have htype := ne_of_size hsize
    have hcount : ne = data.length / type.size := by
      unfold GgufKv.getNe at hne
      simpa [htype.1, hsize, hdvd, eq_comm] using hne
    have hmul : data.length = ne * type.size := by
      rw [hcount, Nat.div_mul_cancel (Nat.dvd_of_mod_eq_zero hdvd)]
    unfold readEmplace
    rw [if_neg htype.2, if_neg htype.1, if_pos rfl]
    obtain ⟨values, hread, hflat⟩ := reads_values hlimit hchunk hmul hfits.bools
    have h := hread.map
      (g := fun values => ({ key := key, isArray := true, type := type, data := values.flatten } : GgufKv))
    rw [hflat] at h
    exact h.array (hcount ▸ hfits.count) (Nat.pos_of_ne_zero hsize) (size_le type)
      (Nat.le_of_eq hmul.symm)
  | strings key data =>
    obtain rfl : data.length = ne := by simpa [GgufKv.getNe] using hne
    unfold readEmplace
    rw [if_neg (by simp), if_pos rfl, if_pos rfl]
    have hread := (reads_readMany fun s hs => reads_readString hlimit hchunk (hfits.strings s hs)).map
      (g := fun strings => ({ key := key, isArray := true, type := .string, dataString := strings } : GgufKv))
    rw [append_nil]
    refine hread.array hfits.stringCount (by decide) (by decide) ?_
    have hlen : ∀ l : List (List UInt8), l.length * 8 ≤ (l.flatMap putString).length := by
      intro l
      induction l with
      | nil => simp
      | cons s l ih =>
        rw [flatMap_cons, length_append, putString, length_append, putLE_length, length_cons]
        omega
    exact hlen data

theorem reads_readKv {kv : GgufKv} {kvs : List GgufKv} (hmade : kv.Made) (hfits : KvFits kv) (hkey : kv.key ≠ [])
    (hnew : ∀ other ∈ kvs, other.key ≠ kv.key) :
    ∃ out, kv.write = some out ∧ Reads bytes (readKv (ofBytes bytes) maxChunk kvs) out kv := by
  obtain ⟨ne, hne, hwrite⟩ := write_made hmade hfits.bools
  refine ⟨_, hwrite, ?_⟩
  have hvalues := reads_readEmplace hlimit hchunk hmade hfits hne
  have hany : ¬(kvs.any fun other => other.key = kv.key) := by simpa using hnew
  unfold readKv
  rw [append_assoc]
  refine (reads_readString hlimit hchunk hfits.key).bind (Reads.test hkey (Reads.test hany ?_))
  unfold typeBytes
  split
  · next harray =>
    rw [append_assoc, append_assoc]
    refine (reads_readType hlimit hchunk .array).bind ((reads_readType hlimit hchunk kv.type).bind
      (Reads.bind (reads_readLE hlimit hchunk ?_) ?_))
    · exact Nat.lt_of_le_of_lt (getNe_le hfits hne).1 (by decide)
    · rwa [harray] at hvalues
  · next harray =>
    have hscalar : kv.isArray = false := by simpa using harray
    rw [hscalar, (getNe_le hfits hne).2 hscalar] at hvalues
    refine (reads_readType hlimit hchunk kv.type).bind ?_
    split
    · next htype =>
      -- an array of arrays has no values
      cases hmade with
      | value key val => exact absurd (some.inj htype) (ne_of_size val.size_ne).2
      | string key val | strings key data => cases htype
      | array key type data hsize => exact absurd (some.inj htype) (ne_of_size hsize).2
    · next htype =>
      obtain rfl := some.inj htype
      exact hvalues
    · next htype => cases htype

theorem reads_readKvs {kvs done : List GgufKv} (hmade : ∀ kv ∈ kvs, kv.Made) (hfits : ∀ kv ∈ kvs, KvFits kv)
    (hkey : ∀ kv ∈ kvs, kv.key ≠ []) (hkeys : (done ++ kvs).Pairwise fun a b => a.key ≠ b.key) :
    ∃ outs, kvs.mapM GgufKv.write = some outs ∧
      Reads bytes (readKvs (ofBytes bytes) maxChunk kvs.length done) outs.flatten (done ++ kvs) := by
  induction kvs generalizing done with
  | nil =>
    rw [append_nil]
    exact ⟨[], rfl, reads_pure done⟩
  | cons kv kvs ih =>
    have hnew : ∀ other ∈ done, other.key ≠ kv.key := fun other hother =>
      (pairwise_append.mp hkeys).2.2 other hother kv mem_cons_self
    obtain ⟨out, hwrite, hread⟩ := reads_readKv hlimit hchunk (hmade kv mem_cons_self)
      (hfits kv mem_cons_self) (hkey kv mem_cons_self) hnew
    obtain ⟨outs, hwrites, hreads⟩ := @ih (done ++ [kv]) (fun k hk => hmade k (mem_cons_of_mem kv hk))
      (fun k hk => hfits k (mem_cons_of_mem kv hk)) (fun k hk => hkey k (mem_cons_of_mem kv hk))
      (by rwa [append_assoc])
    refine ⟨out :: outs, by rw [mapM_cons, hwrite, hwrites]; rfl, ?_⟩
    rw [append_assoc] at hreads
    exact hread.bind hreads

/-! ## The header -/

theorem reads_readHeader {ctx : GgufContext} (hversion : ctx.version = ggufVersion)
    (hinfo : ctx.info.length ≤ (sizeLimit - 1) / 344) (hkv : ctx.kv.length ≤ (sizeLimit - 1) / 88) :
    Reads bytes (readHeader (ofBytes bytes) maxChunk) ctx.writeHeader
      (ggufVersion, ctx.info.length, ctx.kv.length) := by
  have hinfo' : ctx.info.length < 2 ^ 63 := Nat.lt_of_le_of_lt hinfo (by decide)
  have hkv' : ctx.kv.length < 2 ^ 63 := Nat.lt_of_le_of_lt hkv (by decide)
  have hmagic : Reads bytes (readMany (read (ofBytes bytes) maxChunk 1) 4) ggufMagic [[71], [71], [85], [70]] := by
    refine @reads_readMany _ _ _ [[71], [71], [85], [70]] id fun a ha => ?_
    have hlen : a.length = 1 := by
      have hall : ∀ a ∈ ([[71], [71], [85], [70]] : List (List UInt8)), a.length = 1 := by decide
      exact hall a ha
    rw [← hlen]
    exact reads_read hlimit hchunk a
  unfold readHeader GgufContext.writeHeader
  rw [hversion, append_assoc, append_assoc]
  refine Reads.array (hmagic.bind (Reads.test (by decide) ?_)) (by decide) (by decide) (by decide) ?_
  · refine (reads_readLE hlimit hchunk (by decide)).bind (Reads.test (by decide) (Reads.test (by decide) ?_))
    refine (reads_readI64_nat hlimit hchunk hinfo').bind (Reads.test (by omega) ?_)
    exact (reads_readI64_nat hlimit hchunk hkv').last (Reads.test (by omega) (reads_pure _))
  · rw [length_append]
    exact Nat.le_add_right_of_le (by decide)

end Pairs

end LlamaCpp.GgufReader
