import LlamaCpp.Gguf.Writer

/-!
# What the calls keep

`Built` holds of every context that calls make out of an empty one: the pairs have the shape that
the setters give them and keys of their own, and every tensor lies behind the padded bytes of the
tensor in front of it.  The alignment in it stays the default, whatever `general.alignment` says.
-/

namespace LlamaCpp

open List Option

theorem cstr_of_notMem {s : List UInt8} (h : 0 ∉ s) : cstr s = s := by
  unfold cstr
  induction s with
  | nil => rfl
  | cons b s ih =>
    rw [mem_cons, not_or] at h
    obtain ⟨hb, hs⟩ := h
    rw [takeWhile_cons, if_pos (by simpa using Ne.symm hb), ih hs]

theorem zero_notMem_cstr (s : List UInt8) : 0 ∉ cstr s := by
  unfold cstr
  induction s with
  | nil => exact not_mem_nil
  | cons b s ih =>
    rw [takeWhile_cons]
    split
    · next hb =>
      rw [mem_cons, not_or]
      exact ⟨Ne.symm (by simpa using hb), ih⟩
    · exact not_mem_nil

/-- A pair as a setter makes it, without its key. -/
inductive GgufKv.Made : GgufKv → Prop
  | value (key : List UInt8) (val : GgufValue) :
      Made { key := key, isArray := false, type := val.type, data := Readers.putLE val.type.size val.bits }
  | string (key val : List UInt8) :
      Made { key := key, isArray := false, type := .string, dataString := [val] }
  | array (key : List UInt8) (type : GgufType) (data : List UInt8) (hsize : type.size ≠ 0)
      (hdvd : data.length % type.size = 0) : Made { key := key, isArray := true, type := type, data := data }
  | strings (key : List UInt8) (data : List (List UInt8)) :
      Made { key := key, isArray := true, type := .string, dataString := data }

namespace GgufContext

/-- Each tensor lies behind the one in front of it. -/
def Chained (alignment : Nat) : Nat → List GgufTensorInfo → Prop
  | _, [] => True
  | start, ti :: infos => ti.offset = start ∧ Chained alignment (offsetBehind alignment ti) infos

/-- What every context is that calls make out of an empty one. -/
structure Built (ctx : GgufContext) : Prop where
  version : ctx.version = ggufVersion
  alignment : ctx.alignment = ggufDefaultAlignment
  made : ∀ kv ∈ ctx.kv, kv.Made
  key : ∀ kv ∈ ctx.kv, kv.key ≠ [] ∧ 0 ∉ kv.key
  keys : ctx.kv.Pairwise fun a b => a.key ≠ b.key
  name : ∀ name ∈ ctx.info.map (·.name), name.length < ggmlMaxName ∧ 0 ∉ name
  names : (ctx.info.map (·.name)).Nodup
  chained : Chained ctx.alignment 0 ctx.info

theorem initEmpty_built : Built initEmpty where
  version := rfl
  alignment := rfl
  made _ h := absurd h not_mem_nil
  key _ h := absurd h not_mem_nil
  keys := .nil
  name _ h := absurd h not_mem_nil
  names := .nil
  chained := trivial

section

variable {ctx ctx' : GgufContext} {key : List UInt8} {infos : List GgufTensorInfo}

/-! ## Key-value pairs -/

theorem removeKey_sublist (ctx : GgufContext) (key : List UInt8) : (ctx.removeKey key).kv.Sublist ctx.kv := by
  unfold removeKey
  split
  · exact eraseIdx_sublist ..
  · exact List.Sublist.refl _

/-- The key is gone, since no other pair has it. -/
theorem removeKey_key (h : Built ctx) (key : List UInt8) : ∀ kv ∈ (ctx.removeKey key).kv, kv.key ≠ cstr key := by
  intro kv hkv hkey
  unfold removeKey at hkv
  cases hfind : ctx.findKey (cstr key) with
  | none =>
    rw [hfind] at hkv
    have hnone := findIdx?_eq_none_iff.mp hfind kv hkv
    rw [cstr_of_notMem (h.key kv hkv).2, hkey] at hnone
    simp at hnone
  | some i =>
    rw [hfind] at hkv
    obtain ⟨hi, hat, -⟩ := findIdx?_eq_some_iff_getElem.mp hfind
    obtain ⟨j, hj, hget⟩ := mem_eraseIdx_iff_getElem?.mp hkv
    obtain ⟨hjlt, rfl⟩ := List.getElem?_eq_some_iff.mp hget
    have hsame : ctx.kv[i].key = ctx.kv[j].key := by
      rw [hkey, ← of_decide_eq_true hat, cstr_of_notMem (h.key _ (getElem_mem hi)).2]
    rcases Nat.lt_or_gt_of_ne hj with hlt | hgt
    · exact pairwise_iff_getElem.mp h.keys j i hjlt hi hlt hsame.symm
    · exact pairwise_iff_getElem.mp h.keys i j hi hjlt hgt hsame

theorem removeKey_built (h : Built ctx) (key : List UInt8) : Built (ctx.removeKey key) := by
  have hsub := removeKey_sublist ctx key
  have hrest : (ctx.removeKey key).version = ctx.version ∧ (ctx.removeKey key).alignment = ctx.alignment ∧
      (ctx.removeKey key).info = ctx.info := by
    unfold removeKey
    split <;> exact ⟨rfl, rfl, rfl⟩
  obtain ⟨hversion, halign, hinfo⟩ := hrest
  exact {
    version := hversion.trans h.version
    alignment := halign.trans h.alignment
    made := fun kv hkv => h.made kv (hsub.subset hkv)
    key := fun kv hkv => h.key kv (hsub.subset hkv)
    keys := h.keys.sublist hsub
    name := hinfo ▸ h.name
    names := hinfo ▸ h.names
    chained := by
      rw [halign, hinfo]
      exact h.chained }

theorem emplaceBack_built (h : Built ctx) {kv : GgufKv} (hmade : kv.Made) (hkey : 0 ∉ kv.key)
    (hcall : ctx.emplaceBack kv = some ctx') : Built ctx' := by
  unfold emplaceBack at hcall
  split at hcall
  · cases hcall
  · next hne =>
    obtain rfl := some.inj hcall
    have hremoved := removeKey_built h kv.key
    have hmem : ∀ kv' ∈ (ctx.removeKey kv.key).kv ++ [kv], kv' ∈ (ctx.removeKey kv.key).kv ∨ kv' = kv := by
      intro kv' hkv'
      simpa using hkv'
    exact { hremoved with
      made := fun kv' hkv' => (hmem kv' hkv').elim (hremoved.made kv') fun heq => heq ▸ hmade
      key := fun kv' hkv' => (hmem kv' hkv').elim (hremoved.key kv') fun heq => heq ▸ ⟨hne, hkey⟩
      keys := by
        refine pairwise_append.mpr ⟨hremoved.keys, pairwise_singleton _ _, fun a ha b hb => ?_⟩
        obtain rfl := mem_singleton.mp hb
        have hother := removeKey_key h b.key a ha
        rwa [cstr_of_notMem hkey] at hother }

theorem setVal_built (h : Built ctx) {val : GgufValue} (hcall : ctx.setVal key val = some ctx') : Built ctx' := by
  obtain ⟨-, hcall⟩ := ite_none_right_eq_some.mp hcall
  exact emplaceBack_built h (.value _ _) (zero_notMem_cstr key) hcall

theorem setValStr_built (h : Built ctx) {val : List UInt8} (hcall : ctx.setValStr key val = some ctx') :
    Built ctx' := by
  obtain ⟨-, hcall⟩ := ite_none_right_eq_some.mp hcall
  exact emplaceBack_built h (.string _ _) (zero_notMem_cstr key) hcall

theorem setArrData_built (h : Built ctx) {type : GgufType} {data : List UInt8} {n : Nat}
    (hcall : ctx.setArrData key type data n = some ctx') : Built ctx' := by
  obtain ⟨⟨-, hle, hsize, hdvd⟩, hcall⟩ := ite_none_right_eq_some.mp hcall
  refine emplaceBack_built h (.array _ _ _ hsize ?_) (zero_notMem_cstr key) hcall
  rwa [length_take, Nat.min_eq_left hle]

theorem setArrStr_built (h : Built ctx) {data : List (List UInt8)}
    (hcall : ctx.setArrStr key data = some ctx') : Built ctx' := by
  obtain ⟨-, hcall⟩ := ite_none_right_eq_some.mp hcall
  exact emplaceBack_built h (.strings _ _) (zero_notMem_cstr key) hcall

theorem setKvOne_built (h : Built ctx) {kv : GgufKv} (hcall : ctx.setKvOne kv = some ctx') : Built ctx' := by
  unfold setKvOne at hcall
  split at hcall
  · cases hcall
  · split at hcall
    · split at hcall
      · obtain ⟨val, -, hcall⟩ := bind_eq_some_iff.mp hcall
        exact setValStr_built h hcall
      · obtain ⟨val, -, hcall⟩ := bind_eq_some_iff.mp hcall
        exact setVal_built h hcall
    · obtain ⟨ne, -, hcall⟩ := bind_eq_some_iff.mp hcall
      split at hcall
      · exact setArrStr_built h hcall
      · exact setArrData_built h hcall

theorem setKv_built (h : Built ctx) {src : GgufContext} (hcall : ctx.setKv src = some ctx') : Built ctx' := by
  unfold setKv at hcall
  generalize src.kv = kvs at hcall
  induction kvs generalizing ctx with
  | nil =>
    obtain rfl := some.inj hcall
    exact h
  | cons kv kvs ih =>
    obtain ⟨mid, hone, hrest⟩ := bind_eq_some_iff.mp hcall
    exact ih (setKvOne_built h hone) hrest

/-! ## Tensors -/

def endOf (alignment start : Nat) (infos : List GgufTensorInfo) : Nat :=
  match infos.getLast? with
  | none => start
  | some ti => offsetBehind alignment ti

theorem chained_append {alignment start : Nat} {infos' : List GgufTensorInfo} :
    Chained alignment start (infos ++ infos') ↔
      Chained alignment start infos ∧ Chained alignment (endOf alignment start infos) infos' := by
  induction infos generalizing start with
  | nil => exact ⟨fun h => ⟨trivial, h⟩, fun h => h.2⟩
  | cons ti infos ih =>
    have hend : endOf alignment start (ti :: infos) = endOf alignment (offsetBehind alignment ti) infos := by
      unfold endOf
      rw [getLast?_cons]
      cases infos.getLast? <;> rfl
    rw [hend, cons_append, Chained, Chained, ih, and_assoc]

theorem updateOffsets_chained (alignment : Nat) (previous : GgufTensorInfo) (infos : List GgufTensorInfo) :
    Chained alignment (offsetBehind alignment previous) (updateOffsets alignment previous infos) := by
  induction infos generalizing previous with
  | nil => trivial
  | cons ti infos ih => exact ⟨rfl, ih _⟩

theorem updateOffsets_names (alignment : Nat) (previous : GgufTensorInfo) (infos : List GgufTensorInfo) :
    (updateOffsets alignment previous infos).map (·.name) = infos.map (·.name) := by
  induction infos generalizing previous with
  | nil => rfl
  | cons ti infos ih => exact congrArg (ti.name :: ·) (ih _)

theorem split_at {i : Nat} {ti : GgufTensorInfo} (h : infos[i]? = some ti) :
    infos = infos.take i ++ ti :: infos.drop (i + 1) := by
  obtain ⟨hi, rfl⟩ := List.getElem?_eq_some_iff.mp h
  rw [← drop_eq_getElem_cons hi, take_append_drop]

/-- Other tensors with the same names, chained. -/
theorem Built.withInfo (h : Built ctx) (hnames : infos.map (·.name) = ctx.info.map (·.name))
    (hchained : Chained ctx.alignment 0 infos) : Built { ctx with info := infos } :=
  { h with name := hnames ▸ h.name, names := hnames ▸ h.names, chained := hchained }

theorem addTensor_built (h : Built ctx) {tensor : Gguf.GgmlTensor} (hcall : ctx.addTensor tensor = some ctx') :
    Built ctx' := by
  unfold addTensor at hcall
  split at hcall
  · cases hcall
  · next hfind =>
    obtain rfl := some.inj hcall
    have hnew : tensor.name ∉ ctx.info.map (·.name) := by
      intro hmem
      obtain ⟨ti, hti, hname⟩ := List.mem_map.mp hmem
      have hnone := findIdx?_eq_none_iff.mp (not_isSome_iff_eq_none.mp hfind) ti hti
      rw [hname] at hnone
      simp at hnone
    exact { h with
      name := fun name hname => by
        rw [map_append, List.mem_append] at hname
        rcases hname with hname | hname
        · exact h.name name hname
        · obtain rfl : name = tensor.name := by simpa using hname
          exact ⟨tensor.name_lt, tensor.name_cstr⟩
      names := by
        rw [map_append]
        exact nodup_append.mpr ⟨h.names, nodup_cons.mpr ⟨not_mem_nil, .nil⟩, fun a ha b hb heq => by
          obtain rfl : b = tensor.name := by simpa using hb
          exact hnew (heq ▸ ha)⟩
      chained := chained_append.mpr ⟨h.chained, rfl, trivial⟩ }

theorem setTensorType_built (h : Built ctx) {name : List UInt8} {type : Nat}
    (hcall : ctx.setTensorType name type = some ctx') : Built ctx' := by
  unfold setTensorType at hcall
  obtain ⟨i, -, hcall⟩ := bind_eq_some_iff.mp hcall
  obtain ⟨ti, hti, hcall⟩ := bind_eq_some_iff.mp hcall
  split at hcall
  · cases hcall
  · obtain rfl := some.inj hcall
    have hsplit := split_at hti
    have hchained := h.chained
    rw [hsplit] at hchained
    obtain ⟨hfront, hoff, -⟩ := chained_append.mp hchained
    refine h.withInfo ?_ (chained_append.mpr ⟨hfront, hoff, updateOffsets_chained ..⟩)
    rw [map_append, map_cons, updateOffsets_names]
    conv => rhs; rw [hsplit, map_append, map_cons]

theorem setTensorData_built (h : Built ctx) {name : List UInt8} {data : Option (List UInt8)}
    (hcall : ctx.setTensorData name data = some ctx') : Built ctx' := by
  unfold setTensorData at hcall
  obtain ⟨i, -, hcall⟩ := bind_eq_some_iff.mp hcall
  obtain ⟨ti, hti, hcall⟩ := bind_eq_some_iff.mp hcall
  obtain rfl := some.inj hcall
  have hsplit := split_at hti
  have hchained := h.chained
  rw [hsplit] at hchained
  have hi := (List.getElem?_eq_some_iff.mp hti).1
  rw [set_eq_take_append_cons_drop, if_pos hi]
  obtain ⟨hfront, hoff, hrest⟩ := chained_append.mp hchained
  refine h.withInfo ?_ (chained_append.mpr ⟨hfront, hoff, hrest⟩)
  conv => rhs; rw [hsplit]
  rw [map_append, map_append, map_cons, map_cons]

/-! ## Runs -/

theorem call_built (h : Built ctx) {c : GgufCall} (hcall : ctx.call c = some ctx') : Built ctx' := by
  cases c with
  | setVal key val => exact setVal_built h hcall
  | setValStr key val => exact setValStr_built h hcall
  | setArrData key type data n => exact setArrData_built h hcall
  | setArrStr key data => exact setArrStr_built h hcall
  | setKv src => exact setKv_built h hcall
  | removeKey key =>
    obtain rfl := some.inj hcall
    exact removeKey_built h key
  | addTensor tensor => exact addTensor_built h hcall
  | setTensorType name type => exact setTensorType_built h hcall
  | setTensorData name data => exact setTensorData_built h hcall

end

def calls (ctx : GgufContext) (cs : List GgufCall) : Option GgufContext := cs.foldlM call ctx

theorem calls_built {cs : List GgufCall} {ctx ctx' : GgufContext} (h : Built ctx)
    (hcalls : ctx.calls cs = some ctx') : Built ctx' := by
  induction cs generalizing ctx with
  | nil =>
    obtain rfl := some.inj hcalls
    exact h
  | cons c cs ih =>
    obtain ⟨mid, hone, hrest⟩ := bind_eq_some_iff.mp hcalls
    exact ih (call_built h hone) hrest

end GgufContext

end LlamaCpp
