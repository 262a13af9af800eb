import LlamaCpp.Lib.Readers

/-!
# The contents of a GGUF file

`gguf_context` of gguf.cpp, and what ggml.c says about the size of a tensor.

`size_t` and `uint64_t` are natural numbers below `2 ^ 64`; where the code computes with them,
the result is taken modulo `2 ^ 64`.  `int64_t` is an integer.  A string is a list of bytes;
`cstr` is what a C function sees of it.
-/

namespace LlamaCpp

/-- `SIZE_MAX + 1` -/
abbrev sizeLimit : Nat := 2 ^ 64

abbrev int64Max : Int := 2 ^ 63 - 1

/-- The bytes before the first NUL. -/
def cstr (s : List UInt8) : List UInt8 := s.takeWhile (· ≠ 0)

def literal (s : String) : List UInt8 := s.toList.map fun c => UInt8.ofNat c.toNat

abbrev ggufDefaultAlignment : Nat := 32

abbrev ggufVersion : Nat := 3

def ggufMagic : List UInt8 := literal "GGUF"

def ggufKeyGeneralAlignment : List UInt8 := literal "general.alignment"

abbrev ggmlMaxName : Nat := 64

/-- `GGML_PAD` on `size_t`. -/
def ggmlPad (x n : Nat) : Nat := ((x + n - 1) % sizeLimit) &&& (sizeLimit - n)

/-! ## Key-value pairs -/

inductive GgufType where
  | uint8 | int8 | uint16 | int16 | uint32 | int32 | float32 | bool | string | array
  | uint64 | int64 | float64
deriving DecidableEq

namespace GgufType

/-- The value of the enumerator. -/
def code : GgufType → Nat
  | uint8 => 0 | int8 => 1 | uint16 => 2 | int16 => 3 | uint32 => 4 | int32 => 5 | float32 => 6
  | bool => 7 | string => 8 | array => 9 | uint64 => 10 | int64 => 11 | float64 => 12

/-- The enumerator with a value. -/
def ofCode : Nat → Option GgufType
  | 0 => some uint8 | 1 => some int8 | 2 => some uint16 | 3 => some int16 | 4 => some uint32
  | 5 => some int32 | 6 => some float32 | 7 => some bool | 8 => some string | 9 => some array
  | 10 => some uint64 | 11 => some int64 | 12 => some float64
  | _ => none

def size : GgufType → Nat
  | uint8 | int8 | bool => 1
  | uint16 | int16 => 2
  | uint32 | int32 | float32 => 4
  | uint64 | int64 | float64 => 8
  | string | array => 0

@[simp] theorem ofCode_code (t : GgufType) : ofCode t.code = some t := by cases t <;> rfl

theorem code_lt (t : GgufType) : t.code < 256 ^ 4 := by cases t <;> decide

end GgufType

structure GgufKv where
  key : List UInt8
  isArray : Bool
  type : GgufType
  data : List UInt8 := []
  dataString : List (List UInt8) := []
deriving DecidableEq

namespace GgufKv

variable (kv : GgufKv)

/-- `gguf_kv::get_ne`; `none` if an assertion fails. -/
def getNe : Option Nat :=
  if kv.type = .string then
    if kv.isArray ∨ kv.dataString.length = 1 then some kv.dataString.length else none
  else if kv.type.size = 0 ∨ kv.data.length % kv.type.size ≠ 0 then none
  else if kv.isArray ∨ kv.data.length / kv.type.size = 1 then some (kv.data.length / kv.type.size)
  else none

end GgufKv

/-! ## Tensors -/

/-- `blck_size` and `type_size` of `type_traits`. -/
def typeTraits : List (Nat × Nat) :=
  [(1, 4), (1, 2), (32, 18), (32, 20), (0, 0), (0, 0), (32, 22), (32, 24), (32, 34), (32, 36),
    (256, 84), (256, 110), (256, 144), (256, 176), (256, 210), (256, 292), (256, 66), (256, 74),
    (256, 98), (256, 50), (32, 18), (256, 110), (256, 82), (256, 136), (1, 1), (1, 2), (1, 4),
    (1, 8), (1, 8), (256, 56), (1, 2), (0, 0), (0, 0), (0, 0), (256, 54), (256, 66), (0, 0), (0, 0),
    (0, 0), (32, 17), (64, 36), (128, 18), (64, 18)]

abbrev ggmlTypeCount : Nat := 43

def ggmlBlckSize (type : Nat) : Nat := (typeTraits.getD type (0, 0)).1

def ggmlTypeSize (type : Nat) : Nat := (typeTraits.getD type (0, 0)).2

/-- The numbers of elements in the four dimensions. -/
structure Dims where
  ne0 : Int := 1
  ne1 : Int := 1
  ne2 : Int := 1
  ne3 : Int := 1
deriving DecidableEq

structure Strides where
  nb0 : Nat
  nb1 : Nat
  nb2 : Nat
  nb3 : Nat
deriving DecidableEq

/-- The strides of a tensor without gaps, in `size_t`. -/
def Strides.of (type : Nat) (ne : Dims) : Strides :=
  let nb0 := ggmlTypeSize type
  let nb1 := nb0 * (ne.ne0.toNat / ggmlBlckSize type) % sizeLimit
  let nb2 := nb1 * ne.ne1.toNat % sizeLimit
  { nb0 := nb0, nb1 := nb1, nb2 := nb2, nb3 := nb2 * ne.ne2.toNat % sizeLimit }

/-- `gguf_tensor_info`; of the tensor, what gguf.cpp reads or writes. -/
structure GgufTensorInfo where
  /-- A C string. -/
  name : List UInt8
  type : Nat
  ne : Dims
  nb : Strides
  offset : Nat
  data : Option (List UInt8) := none
deriving DecidableEq

def ggmlNbytes (type : Nat) (ne : Dims) (nb : Strides) : Nat :=
  if ne.ne0 ≤ 0 ∨ ne.ne1 ≤ 0 ∨ ne.ne2 ≤ 0 ∨ ne.ne3 ≤ 0 then 0
  else
    let rest := (ne.ne1 - 1).toNat * nb.nb1 + (ne.ne2 - 1).toNat * nb.nb2 + (ne.ne3 - 1).toNat * nb.nb3
    if ggmlBlckSize type = 1 then
      (ggmlTypeSize type + (ne.ne0 - 1).toNat * nb.nb0 + rest) % sizeLimit
    else (ne.ne0.toNat * nb.nb0 % sizeLimit / ggmlBlckSize type + rest) % sizeLimit

def ggmlNDims (ne : Dims) : Nat :=
  if 1 < ne.ne3 then 4 else if 1 < ne.ne2 then 3 else if 1 < ne.ne1 then 2 else 1

def GgufTensorInfo.nbytes (ti : GgufTensorInfo) : Nat := ggmlNbytes ti.type ti.ne ti.nb

/-! ## The context -/

/-- `gguf_context`; `data` is the blob, if it was loaded. -/
structure GgufContext where
  version : Nat := ggufVersion
  kv : List GgufKv := []
  info : List GgufTensorInfo := []
  alignment : Nat := ggufDefaultAlignment
  offset : Nat := 0
  size : Nat := 0
  data : Option (List UInt8) := none
deriving DecidableEq

namespace GgufContext

variable (ctx : GgufContext)

def findKey (key : List UInt8) : Option Nat := ctx.kv.findIdx? fun kv => cstr kv.key = key

def findTensor (name : List UInt8) : Option Nat := ctx.info.findIdx? fun ti => ti.name = name

/-- `gguf_get_val_u32`; `none` if an assertion fails. -/
def getValU32 (keyId : Int) : Option Nat :=
  if 0 ≤ keyId ∧ keyId < ctx.kv.length then do
    let kv ← ctx.kv[keyId.toNat]?
    let ne ← kv.getNe
    if ne = 1 ∧ kv.type = .uint32 then some (Readers.getLE kv.data) else none
  else none

end GgufContext

end LlamaCpp
