import LlamaCpp.Gguf.Context

/-!
# Building and writing a GGUF file

The functions of gguf.cpp that change a `gguf_context`, as calls that can be made one after the
other, and `gguf_write_out`.  The result is `none` where an assertion fails, where the code divides
by zero and where it would read behind the end of the caller's data.

A `const char *` is a list of bytes, of which a function sees `cstr`.
-/

namespace LlamaCpp

/-- A value of one of the types `uint8_t` to `double` or `bool`, as its bits. -/
structure GgufValue where
  type : GgufType
  bits : Nat
  size_ne : type.size ≠ 0
  bits_lt : bits < 256 ^ type.size
  bool_le : type = .bool → bits ≤ 1

/-- `gguf_kv::get_val`, of a type that is not a string. -/
def GgufKv.getVal (kv : GgufKv) : Option GgufValue :=
  if h : kv.type.size ≠ 0 ∧ kv.data.length % kv.type.size = 0 ∧ kv.type.size ≤ kv.data.length then
    let bits := Readers.getLE (kv.data.take kv.type.size)
    some {
      type := kv.type
      bits := if kv.type = .bool then min bits 1 else bits
      size_ne := h.1
      bits_lt := by
        have hlt := Readers.getLE_lt (kv.data.take kv.type.size)
        rw [List.length_take, Nat.min_eq_left h.2.2] at hlt
        split
        · exact Nat.lt_of_le_of_lt (Nat.min_le_left ..) hlt
        · exact hlt
      bool_le := fun htype => by
        rw [if_pos htype]
        exact Nat.min_le_right .. }
  else none

/-- Of `ggml_tensor`, what `gguf_add_tensor` copies and the writer reads.  The name is a C string in
an array. -/
structure Gguf.GgmlTensor where
  name : List UInt8
  type : Nat
  ne : Dims
  nb : Strides
  data : Option (List UInt8)
  name_lt : name.length < ggmlMaxName
  name_cstr : 0 ∉ name
  ne_nonneg : 0 ≤ ne.ne0 ∧ 0 ≤ ne.ne1 ∧ 0 ≤ ne.ne2 ∧ 0 ≤ ne.ne3

namespace GgufContext

variable (ctx : GgufContext)

/-! ## Key-value pairs -/

def initEmpty : GgufContext := {}

def removeKey (key : List UInt8) : GgufContext :=
  match ctx.findKey (cstr key) with
  | some i => { ctx with kv := ctx.kv.eraseIdx i }
  | none => ctx

/-- `gguf_check_reserved_keys`; `val` is there if it is an `uint32_t`. -/
def checkReservedKeys (key : List UInt8) (val : Option Nat) : Bool :=
  key ≠ ggufKeyGeneralAlignment ||
    match val with
    | some val => 0 < val && val &&& (val - 1) = 0
    | none => false

/-- What the setters have in common behind their checks. -/
def emplaceBack (kv : GgufKv) : Option GgufContext :=
  if kv.key = [] then none
  else some { ctx.removeKey kv.key with kv := (ctx.removeKey kv.key).kv ++ [kv] }

/-- `gguf_set_val_u8` to `gguf_set_val_bool`. -/
def setVal (key : List UInt8) (val : GgufValue) : Option GgufContext :=
  if checkReservedKeys (cstr key) (if val.type = .uint32 then some val.bits else none) then
    ctx.emplaceBack {
      key := cstr key
      isArray := false
      type := val.type
      data := Readers.putLE val.type.size val.bits }
  else none

section Values

variable (key : List UInt8)

end Values

def setValStr (key val : List UInt8) : Option GgufContext :=
  if checkReservedKeys (cstr key) none then
    ctx.emplaceBack { key := cstr key, isArray := false, type := .string, dataString := [cstr val] }
  else none

/-- `gguf_set_arr_data`; `data` is what is behind the pointer. -/
def setArrData (key : List UInt8) (type : GgufType) (data : List UInt8) (n : Nat) :
    Option GgufContext :=
  let nbytes := n * type.size % sizeLimit
  if checkReservedKeys (cstr key) none ∧ nbytes ≤ data.length ∧ type.size ≠ 0 ∧
      nbytes % type.size = 0 then
    ctx.emplaceBack { key := cstr key, isArray := true, type := type, data := data.take nbytes }
  else none

def setArrStr (key : List UInt8) (data : List (List UInt8)) : Option GgufContext :=
  if checkReservedKeys (cstr key) none then
    ctx.emplaceBack { key := cstr key, isArray := true, type := .string, dataString := data.map cstr }
  else none

/-- The body of the loop of `gguf_set_kv`. -/
def setKvOne (kv : GgufKv) : Option GgufContext :=
  if kv.type = .array then none
  else if kv.isArray = false then
    if kv.type = .string then kv.dataString.head?.bind (ctx.setValStr kv.key)
    else kv.getVal.bind (ctx.setVal kv.key)
  else
    kv.getNe.bind fun ne =>
      if kv.type = .string then ctx.setArrStr kv.key (kv.dataString.take ne)
      else ctx.setArrData kv.key kv.type kv.data ne

def setKv (src : GgufContext) : Option GgufContext := src.kv.foldlM setKvOne ctx

/-! ## Tensors -/

def offsetBehind (alignment : Nat) (ti : GgufTensorInfo) : Nat :=
  (ti.offset + ggmlPad ti.nbytes alignment) % sizeLimit

def addTensor (tensor : Gguf.GgmlTensor) : Option GgufContext :=
  if (ctx.findTensor tensor.name).isSome then none
  else
    let ti : GgufTensorInfo := {
      name := tensor.name
      type := tensor.type
      ne := tensor.ne
      nb := tensor.nb
      offset :=
        match ctx.info.getLast? with
        | none => 0
        | some ti => offsetBehind ctx.alignment ti
      data := tensor.data }
    some { ctx with info := ctx.info ++ [ti] }

/-- The loop over the tensors behind one whose size has changed. -/
def updateOffsets (alignment : Nat) : GgufTensorInfo → List GgufTensorInfo → List GgufTensorInfo
  | _, [] => []
  | previous, ti :: infos =>
    let ti := { ti with offset := offsetBehind alignment previous }
    ti :: updateOffsets alignment ti infos

def setTensorType (name : List UInt8) (type : Nat) : Option GgufContext := do
  let i ← ctx.findTensor (cstr name)
  let ti ← ctx.info[i]?
  if ggmlBlckSize type = 0 ∨ ti.ne.ne0 % ggmlBlckSize type ≠ 0 then none
  else
    let ti := { ti with type := type, nb := .of type ti.ne }
    some { ctx with
      info := ctx.info.take i ++ ti :: updateOffsets ctx.alignment ti (ctx.info.drop (i + 1)) }

def setTensorData (name : List UInt8) (data : Option (List UInt8)) : Option GgufContext := do
  let i ← ctx.findTensor (cstr name)
  let ti ← ctx.info[i]?
  some { ctx with info := ctx.info.set i { ti with data := data } }

end GgufContext

/-- A call that changes a context. -/
inductive GgufCall where
  | setVal (key : List UInt8) (val : GgufValue)
  | setValStr (key val : List UInt8)
  | setArrData (key : List UInt8) (type : GgufType) (data : List UInt8) (n : Nat)
  | setArrStr (key : List UInt8) (data : List (List UInt8))
  | setKv (src : GgufContext)
  | removeKey (key : List UInt8)
  | addTensor (tensor : Gguf.GgmlTensor)
  | setTensorType (name : List UInt8) (type : Nat)
  | setTensorData (name : List UInt8) (data : Option (List UInt8))

namespace GgufContext

def call (ctx : GgufContext) : GgufCall → Option GgufContext
  | .setVal key val => ctx.setVal key val
  | .setValStr key val => ctx.setValStr key val
  | .setArrData key type data n => ctx.setArrData key type data n
  | .setArrStr key data => ctx.setArrStr key data
  | .setKv src => ctx.setKv src
  | .removeKey key => some (ctx.removeKey key)
  | .addTensor tensor => ctx.addTensor tensor
  | .setTensorType name type => ctx.setTensorType name type
  | .setTensorData name data => ctx.setTensorData name data

end GgufContext

/-! ## Writing -/

/-- `gguf_writer_base::write` of a string. -/
def putString (s : List UInt8) : List UInt8 := Readers.putLE 8 s.length ++ s

/-- `gguf_writer_base::write` of an `int64_t`. -/
def putI64 (n : Int) : List UInt8 := Readers.putLE 8 (n % 2 ^ 64).toNat

def GgufKv.writeValues (kv : GgufKv) (ne : Nat) : Option (List UInt8) :=
  match kv.type with
  | .array => none
  | .string => some ((kv.dataString.take ne).flatMap putString)
  | .bool => some ((kv.data.take ne).map fun byte => if byte ≠ 0 then 1 else 0)
  | _ => some kv.data

/-- `gguf_writer_base::write` of a pair. -/
def GgufKv.write (kv : GgufKv) : Option (List UInt8) := do
  let ne ← kv.getNe
  let values ← kv.writeValues ne
  let type :=
    if kv.isArray then
      Readers.putLE 4 GgufType.array.code ++ Readers.putLE 4 kv.type.code ++ Readers.putLE 8 ne
    else Readers.putLE 4 kv.type.code
  some (putString kv.key ++ type ++ values)

/-- The four dimensions. -/
def Dims.toList (ne : Dims) : List Int := [ne.ne0, ne.ne1, ne.ne2, ne.ne3]

def ggmlIsContiguous (type : Nat) (ne : Dims) (nb : Strides) : Bool :=
  let next := Strides.of type ne
  (ne.ne0 = ggmlBlckSize type || nb.nb0 = next.nb0) && (ne.ne1 = 1 || nb.nb1 = next.nb1) &&
    (ne.ne2 = 1 || nb.nb2 = next.nb2) && (ne.ne3 = 1 || nb.nb3 = next.nb3)

namespace GgufTensorInfo

variable (ti : GgufTensorInfo)

/-- `gguf_writer_base::write_tensor_meta` -/
def writeMeta : List UInt8 :=
  let nDims := ggmlNDims ti.ne
  putString ti.name ++ Readers.putLE 4 nDims ++ (ti.ne.toList.take nDims).flatMap putI64 ++
    Readers.putLE 4 ti.type ++ Readers.putLE 8 ti.offset

end GgufTensorInfo

namespace GgufContext

/-- `gguf_writer_base::pad`: zeros up to a multiple of the alignment. -/
def pad (alignment : Nat) (bytes : List UInt8) : List UInt8 :=
  bytes ++ List.replicate ((alignment - bytes.length % alignment) % alignment) 0

/-- `write_tensor_data` of the writers. -/
def writeTensorData (offsetData alignment : Nat) (bytes : List UInt8) (ti : GgufTensorInfo) :
    Option (List UInt8) :=
  if bytes.length - offsetData = ti.offset ∧ ggmlBlckSize ti.type ≠ 0 ∧
      ggmlIsContiguous ti.type ti.ne ti.nb then
    ti.data.bind fun data =>
      if ti.nbytes ≤ data.length then some (pad alignment (bytes ++ data.take ti.nbytes)) else none
  else none

variable (ctx : GgufContext)

def writeHeader : List UInt8 :=
  ggufMagic ++ Readers.putLE 4 ctx.version ++ Readers.putLE 8 ctx.info.length ++
    Readers.putLE 8 ctx.kv.length

def writeOut (onlyMeta : Bool) : Option (List UInt8) := do
  let kvs ← ctx.kv.mapM GgufKv.write
  let bytes :=
    pad ctx.alignment (ctx.writeHeader ++ kvs.flatten ++ ctx.info.flatMap GgufTensorInfo.writeMeta)
  if onlyMeta then some bytes
  else ctx.info.foldlM (writeTensorData bytes.length ctx.alignment) bytes

end GgufContext

end LlamaCpp
