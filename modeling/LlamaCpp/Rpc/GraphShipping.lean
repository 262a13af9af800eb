import LlamaCpp.Rpc.Graph
import Mathlib.Data.List.Perm.Subperm

/-!
# What arrives of a graph

`graph_ships_iff` says when the worker rebuilds the graph of the client.  Extents and strides have to be numbers of 32 bits,
as all others arrive modulo that, and the payload of `serialize_graph` has to be smaller than 2 GiB.
-/

namespace LlamaCpp.Rpc

open List Option

open Function (update)
open Readers (putLE getLE)
open Packed

/-! ### The bytes of a tensor -/

theorem fields_widths (t : RpcTensor) : t.fields.map Prod.fst = fieldWidths := by
  simp [RpcTensor.fields, fieldWidths]

theorem fields_fit (t : RpcTensor) : ∀ f ∈ t.fields, f.2 < 256 ^ f.1 := by
  have h64 : ∀ x : UInt64, x.toNat < 256 ^ 8 := fun x => x.toNat_lt
  have h32 : ∀ x : UInt32, x.toNat < 256 ^ 4 := fun x => x.toNat_lt
  have h8 : ∀ x : UInt8, x.toNat < 256 ^ 1 := fun x => x.toNat_lt
  intro f hf
  simp only [RpcTensor.fields, List.mem_append, mem_ofFn, mem_cons, not_mem_nil, or_false] at hf
  rcases hf with ((((((((hf | ⟨i, rfl⟩) | ⟨i, rfl⟩) | rfl) | ⟨i, rfl⟩) | rfl) | ⟨i, rfl⟩) | hf) | ⟨i, rfl⟩) | rfl
  · rcases hf with rfl | rfl | rfl
    · exact h64 _
    · exact h32 _
    · exact h64 _
  · exact h32 _
  · exact h32 _
  · exact h32 _
  · exact h32 _
  · exact h32 _
  · exact h64 _
  · rcases hf with rfl | rfl | rfl
    · exact h64 _
    · exact h64 _
    · exact h64 _
  · exact h8 _
  · decide

theorem encodeTensor_length (t : RpcTensor) : (encodeTensor t).length = rpcTensorSize := by
  rw [encodeTensor, putAll_length, fields_widths]
  decide

theorem fields_values (t : RpcTensor) : t.fields.map Prod.snd =
    [t.id.toNat, t.type.toNat, t.buffer.toNat] ++ (List.ofFn (fun i => (t.ne i).toNat) ++
      (List.ofFn (fun i => (t.nb i).toNat) ++ ([t.op.toNat] ++ (List.ofFn (fun i => (t.opParams i).toUInt32.toNat) ++
        ([t.flags.toUInt32.toNat] ++ (List.ofFn (fun i => (t.src i).toNat) ++
          ([t.viewSrc.toNat, t.viewOffs.toNat, t.data.toNat] ++
            (List.ofFn (fun i => (t.name i).toNat) ++ [0])))))))) := by
  simp only [RpcTensor.fields, map_append, map_ofFn, Function.comp_def, map_cons, map_nil, append_assoc]

/-- The worker reads the tensor that the client wrote. -/
theorem decodeTensor_encodeTensor (t : RpcTensor) (rest : List UInt8) : decodeTensor (encodeTensor t ++ rest) = t := by
  have htake : takeAll fieldWidths (encodeTensor t ++ rest) = t.fields.map Prod.snd := by
    rw [← fields_widths t, encodeTensor, takeAll_putAll (fields_fit t)]
  have hvalues := fields_values t
  have hne : ∀ i : Fin maxDims, (t.fields.map Prod.snd).getD (3 + i) 0 = (t.ne i).toNat := by
    intro i
    rw [hvalues]
    exact getD_block _ _ _ i (by simp)
  rw [← append_assoc] at hvalues
  have hnb : ∀ i : Fin maxDims, (t.fields.map Prod.snd).getD (7 + i) 0 = (t.nb i).toNat := by
    intro i
    rw [hvalues]
    exact getD_block _ _ _ i (by simp)
  rw [← append_assoc] at hvalues
  have hop : (t.fields.map Prod.snd).getD 11 0 = t.op.toNat := by
    rw [hvalues]
    exact getD_block (n := 1) _ _ (fun _ => t.op.toNat) 0 (by simp)
  rw [← append_assoc] at hvalues
  have hops : ∀ i : Fin maxOpParams, (t.fields.map Prod.snd).getD (12 + i) 0 = (t.opParams i).toUInt32.toNat := by
    intro i
    rw [hvalues]
    exact getD_block _ _ _ i (by simp)
  rw [← append_assoc] at hvalues
  have hflags : (t.fields.map Prod.snd).getD 28 0 = t.flags.toUInt32.toNat := by
    rw [hvalues]
    exact getD_block (n := 1) _ _ (fun _ => t.flags.toUInt32.toNat) 0 (by simp)
  rw [← append_assoc] at hvalues
  have hsrc : ∀ i : Fin maxSrc, (t.fields.map Prod.snd).getD (29 + i) 0 = (t.src i).toNat := by
    intro i
    rw [hvalues]
    exact getD_block _ _ _ i (by simp)
  rw [← append_assoc] at hvalues
  have hlinks : ∀ i : Fin 3, (t.fields.map Prod.snd).getD (39 + i) 0 =
      [t.viewSrc.toNat, t.viewOffs.toNat, t.data.toNat].get i := by
    intro i
    rw [hvalues]
    exact getD_block (n := 3) _ _ [t.viewSrc.toNat, t.viewOffs.toNat, t.data.toNat].get i (by simp)
  have hview : (t.fields.map Prod.snd).getD 39 0 = t.viewSrc.toNat := hlinks 0
  have hoffs : (t.fields.map Prod.snd).getD 40 0 = t.viewOffs.toNat := hlinks 1
  have hdata : (t.fields.map Prod.snd).getD 41 0 = t.data.toNat := hlinks 2
  rw [← append_assoc] at hvalues
  have hname : ∀ i : Fin maxName, (t.fields.map Prod.snd).getD (42 + i) 0 = (t.name i).toNat := by
    intro i
    rw [hvalues]
    exact getD_block _ _ _ i (by simp)
  have hid : (t.fields.map Prod.snd).getD 0 0 = t.id.toNat := rfl
  have htype : (t.fields.map Prod.snd).getD 1 0 = t.type.toNat := rfl
  have hbuffer : (t.fields.map Prod.snd).getD 2 0 = t.buffer.toNat := rfl
  simp only [decodeTensor, htake, hid, htype, hbuffer, hne, hnb, hop, hops, hflags, hsrc, hview, hoffs, hdata, hname,
    UInt64.ofNat_toNat, UInt32.ofNat_toNat, UInt8.ofNat_toNat, Int32.toInt32_toUInt32]

/-! ### What the client collects -/

namespace Client

variable {c : Client} {nodes : List UInt64} {s : Collected}

/-- The tensors that a node refers to. -/
def refs (c : Client) (id : UInt64) : List UInt64 := List.ofFn (c.heap id).src ++ [(c.heap id).viewSrc]

def wire (c : Client) (nodes : List UInt64) (id : UInt64) : RpcTensor :=
  if id ∈ nodes then c.serialize id else c.serializeLeaf id

/-- The tensors of a graph, in the order in which they are sent. -/
def graphIds (c : Client) (nodes : List UInt64) : List UInt64 := (nodes.foldl (c.collectNode nodes) {}).visited

/-- Every visited tensor is sent once. -/
structure SentOnce (c : Client) (nodes : List UInt64) (s : Collected) : Prop where
  tensors : s.tensors = s.visited.map (c.wire nodes)
  nodup : s.visited.Nodup

theorem SentOnce.push (h : SentOnce c nodes s) {t : UInt64} (ht : t ∉ s.visited) {r : RpcTensor}
    (hr : r = c.wire nodes t) : SentOnce c nodes ⟨s.visited ++ [t], s.tensors ++ [r]⟩ where
  tensors := by rw [map_append, map_singleton, h.tensors, hr]
  nodup := nodup_append.mpr ⟨h.nodup, pairwise_singleton _ _, by
    intro x hx y hy heq
    rw [mem_singleton.mp hy] at heq
    exact ht (heq ▸ hx)⟩

theorem addLeaf_spec (h : SentOnce c nodes s) (t : UInt64) : SentOnce c nodes (c.addLeaf nodes s t) ∧
      ∀ x, x ∈ (c.addLeaf nodes s t).visited ↔ x ∈ s.visited ∨ x = t ∧ x ≠ 0 ∧ x ∉ nodes := by
  unfold addLeaf
  split
  · next hskip =>
      refine ⟨h, fun x => ⟨.inl, ?_⟩⟩
      rintro (hx | ⟨rfl, hx0, hxn⟩)
      · exact hx
      · rcases hskip with h0 | hn | hv
        · exact absurd h0 hx0
        · exact absurd hn hxn
        · exact hv
  · next hadd =>
      simp only [not_or] at hadd
      obtain ⟨h0, hn, hv⟩ := hadd
      refine ⟨h.push hv (if_neg hn).symm, fun x => ?_⟩
      rw [List.mem_append, mem_singleton]
      constructor
      · rintro (hx | rfl)
        · exact .inl hx
        · exact .inr ⟨rfl, h0, hn⟩
      · rintro (hx | ⟨rfl, -, -⟩)
        · exact .inl hx
        · exact .inr rfl

theorem addLeaves_spec (ts : List UInt64) (h : SentOnce c nodes s) :
    SentOnce c nodes (ts.foldl (c.addLeaf nodes) s) ∧
      ∀ x, x ∈ (ts.foldl (c.addLeaf nodes) s).visited ↔ x ∈ s.visited ∨ x ∈ ts ∧ x ≠ 0 ∧ x ∉ nodes := by
  induction ts generalizing s with
  | nil => exact ⟨h, fun x => by simp⟩
  | cons t ts ih =>
    obtain ⟨ht, hmem⟩ := addLeaf_spec h t
    obtain ⟨hts, hmems⟩ := ih ht
    refine ⟨hts, fun x => ?_⟩
    rw [foldl_cons, hmems, hmem, mem_cons]
    tauto

theorem collectNode_spec (h : SentOnce c nodes s) {node : UInt64} (hnode : node ∈ nodes) :
    SentOnce c nodes (c.collectNode nodes s node) ∧
      ∀ x, x ∈ (c.collectNode nodes s node).visited ↔
        x ∈ s.visited ∨ x = node ∨ x ∈ c.refs node ∧ x ≠ 0 ∧ x ∉ nodes := by
  obtain ⟨hleaves, hmem⟩ := addLeaves_spec (c.refs node) h
  rw [refs, foldl_append, foldl_cons, foldl_nil] at hleaves hmem
  unfold collectNode
  dsimp only
  split
  · next hv =>
      refine ⟨hleaves, fun x => ?_⟩
      rw [hmem]
      constructor
      · rintro (hx | hx)
        · exact .inl hx
        · exact .inr (.inr hx)
      · rintro (hx | rfl | hx)
        · exact .inl hx
        · exact (hmem x).mp hv
        · exact .inr hx
  · next hv =>
      refine ⟨hleaves.push hv (if_pos hnode).symm, fun x => ?_⟩
      rw [List.mem_append, mem_singleton, hmem, refs]
      tauto

/-- The tensors of a graph are the nodes and what they refer to. -/
theorem collect_spec (c : Client) (nodes : List UInt64) :
    c.collectGraphTensors nodes = (c.graphIds nodes).map (c.wire nodes) ∧ (c.graphIds nodes).Nodup ∧
      ∀ x, x ∈ c.graphIds nodes ↔ x ∈ nodes ∨ x ≠ 0 ∧ ∃ node ∈ nodes, x ∈ c.refs node := by
  have run : ∀ (ns : List UInt64) (s : Collected), ns ⊆ nodes → SentOnce c nodes s →
      SentOnce c nodes (ns.foldl (c.collectNode nodes) s) ∧
        ∀ x, x ∈ (ns.foldl (c.collectNode nodes) s).visited ↔
          x ∈ s.visited ∨ x ∈ ns ∨ (x ≠ 0 ∧ x ∉ nodes) ∧ ∃ node ∈ ns, x ∈ c.refs node := by
    intro ns
    induction ns with
    | nil => exact fun s _ h => ⟨h, fun x => by simp⟩
    | cons n ns ih =>
      intro s hsub h
      obtain ⟨hn, hmem⟩ := collectNode_spec h (hsub mem_cons_self)
      obtain ⟨hns, hmems⟩ := ih _ (fun x hx => hsub (mem_cons_of_mem n hx)) hn
      refine ⟨hns, fun x => ?_⟩
      rw [foldl_cons, hmems, hmem]
      simp only [mem_cons, exists_eq_or_imp]
      tauto
  obtain ⟨hsent, hmem⟩ := run nodes {} (List.Subset.refl _) ⟨rfl, List.Pairwise.nil⟩
  refine ⟨hsent.tensors, hsent.nodup, fun x => ?_⟩
  rw [graphIds, hmem]
  constructor
  · rintro (hx | hx | ⟨⟨h0, -⟩, hx⟩)
    · cases hx
    · exact .inl hx
    · exact .inr ⟨h0, hx⟩
  · rintro (hx | ⟨h0, hx⟩)
    · exact .inr (.inl hx)
    · by_cases hn : x ∈ nodes
      · exact .inr (.inl hn)
      · exact .inr (.inr ⟨⟨h0, hn⟩, hx⟩)

theorem wire_id (c : Client) (nodes : List UInt64) (id : UInt64) : (c.wire nodes id).id = id := by
  unfold wire
  split
  · rfl
  · rfl

theorem find_wire (c : Client) (nodes ids : List UInt64) (id : UInt64) :
    (ids.map (c.wire nodes)).find? (fun t => t.id = id) = if id ∈ ids then some (c.wire nodes id) else none := by
  induction ids with
  | nil => rfl
  | cons x ids ih =>
    rw [map_cons, find?_cons, wire_id]
    by_cases hx : x = id
    · subst hx
      simp
    · have hne : ¬ id = x := fun h => hx h.symm
      simp [hx, hne, ih]

end Client

/-! ### What the worker builds -/

/-- The worker makes a tensor of what it was sent, and a null buffer comes with null data. -/
def Worker.Takes (w : Worker) (t : RpcTensor) : Prop :=
  w.deserializeTensor true t = .ok (w.tensorOf t) ∧ ¬((w.tensorOf t).buffer = 0 ∧ (w.tensorOf t).data ≠ 0)

def Worker.rebuilt (w : Worker) (t : RpcTensor) : GgmlTensor :=
  { w.tensorOf t with src := t.src, viewSrc := t.viewSrc, viewOffs := t.viewOffs }

def Linked (t : RpcTensor) (ids : List UInt64) : Prop :=
  (∀ i, t.src i ≠ 0 → t.src i ∈ ids) ∧ (t.viewSrc ≠ 0 → t.viewSrc ∈ ids)

/-- The map `m'` has the tensors of `m`, with those of `skip` changed, and new ones that are complete. -/
structure Grew (w : Worker) (tensorPtrs : UInt64 → Option RpcTensor) (capacity : Nat) (skip : UInt64 → Prop)
    (m m' : NodeMap) : Prop where
  sub : m.ids ⊆ m'.ids
  nodup : m.ids.Nodup → m'.ids.Nodup
  room : m.ids.length ≤ capacity → m'.ids.length ≤ capacity
  old : ∀ id ∈ m.ids, ¬ skip id → m'.tensor id = m.tensor id
  new : ∀ id ∈ m'.ids, id ∉ m.ids → ∃ t, tensorPtrs id = some t ∧ w.Takes t ∧ m'.tensor id = w.rebuilt t ∧
    Linked t m'.ids

variable {w : Worker} {tensorPtrs : UInt64 → Option RpcTensor} {capacity : Nat} {skip skip' : UInt64 → Prop}
  {m m' m'' : NodeMap} {id : UInt64} {t : RpcTensor} {create : UInt64 → Building Unit}

theorem Linked.mono {ids ids' : List UInt64} (h : Linked t ids) (hsub : ids ⊆ ids') : Linked t ids' :=
  ⟨fun i hi => hsub (h.1 i hi), fun hv => hsub (h.2 hv)⟩

theorem Grew.refl (m : NodeMap) : Grew w tensorPtrs capacity skip m m where
  sub := List.Subset.refl _
  nodup h := h
  room h := h
  old _ _ _ := rfl
  new _ hin hnot := absurd hin hnot

theorem Grew.trans (h : Grew w tensorPtrs capacity skip m m') (h' : Grew w tensorPtrs capacity skip' m' m'')
    (hskip : ∀ id, skip' id → skip id ∧ id ∈ m.ids) : Grew w tensorPtrs capacity skip m m'' where
  sub := fun _ hx => h'.sub (h.sub hx)
  nodup hm := h'.nodup (h.nodup hm)
  room hm := h'.room (h.room hm)
  old id hin hs := (h'.old id (h.sub hin) fun hs' => hs (hskip id hs').1).trans (h.old id hin hs)
  new id hin hnot := by
    by_cases hin' : id ∈ m'.ids
    · obtain ⟨t, ht, htakes, htensor, hlinked⟩ := h.new id hin' hnot
      refine ⟨t, ht, htakes, ?_, hlinked.mono h'.sub⟩
      rw [h'.old id hin' fun hs' => hnot (hskip id hs').2, htensor]
    · exact h'.new id hin hin'

theorem Grew.edit (m : NodeMap) (id : UInt64) (f : GgmlTensor → GgmlTensor) :
    Grew w tensorPtrs capacity (· = id) m (m.edit id f) where
  sub := List.Subset.refl _
  nodup h := h
  room h := h
  old _ _ hne := Function.update_of_ne hne _ _
  new _ hin hnot := absurd hin hnot

/-- Making other tensors and then changing the one at `id` -/
theorem Grew.editAfter (h : Grew w tensorPtrs capacity (fun _ => False) m m') (hid : id ∈ m.ids)
    (f : GgmlTensor → GgmlTensor) :
    Grew w tensorPtrs capacity (· = id) m (m'.edit id f) ∧ (m'.edit id f).tensor id = f (m.tensor id) := by
  have hsame : m'.tensor id = m.tensor id := h.old id hid fun h => h
  constructor
  · have hstart : Grew w tensorPtrs capacity (· = id) m m' :=
      ⟨h.sub, h.nodup, h.room, fun x hx _ => h.old x hx fun h => h, h.new⟩
    exact hstart.trans (Grew.edit m' id f) fun x hx => ⟨hx, hx ▸ hid⟩
  · show update m'.tensor id (f (m'.tensor id)) id = f (m.tensor id)
    rw [Function.update_self, hsame]

theorem building_bind {α β : Type} {x : Building α} {f : α → Building β} {b : β} :
    (x >>= f) m = .ok b m'' ↔ ∃ a m', x m = .ok a m' ∧ f a m' = .ok b m'' := by
  constructor
  · intro h
    cases hx : x m with
    | ok a m' =>
      refine ⟨a, m', rfl, ?_⟩
      simpa only [bind, EStateM.bind, hx] using h
    | error e m' => simp only [bind, EStateM.bind, hx] at h; cases h
  · rintro ⟨a, m', hx, hf⟩
    simp only [bind, EStateM.bind, hx, hf]

/-- What is asked of the function that makes the tensors a new one is linked to. -/
def Creates (w : Worker) (tensorPtrs : UInt64 → Option RpcTensor) (capacity : Nat)
    (create : UInt64 → Building Unit) : Prop :=
  ∀ x m m', create x m = .ok () m' → x ∈ m'.ids ∧ Grew w tensorPtrs capacity (fun _ => False) m m'

theorem linkSrcs_spec (hcreate : Creates w tensorPtrs capacity create) (is : List (Fin maxSrc))
    (hid : id ∈ m.ids) (h : is.forM (linkSrc create id t) m = .ok () m') :
    Grew w tensorPtrs capacity (· = id) m m' ∧
      m'.tensor id = (m.tensor id).withSrc
        (fun i => if i ∈ is ∧ t.src i ≠ 0 then t.src i else (m.tensor id).src i) ∧
      ∀ i ∈ is, t.src i ≠ 0 → t.src i ∈ m'.ids := by
  induction is generalizing m with
  | nil =>
    cases h
    refine ⟨.refl _, ?_, fun i hi => nomatch hi⟩
    simp [GgmlTensor.withSrc]
  | cons i is ih =>
    obtain ⟨_, m₁, h₁, h⟩ := building_bind.mp h
    unfold linkSrc at h₁
    by_cases hi : t.src i = 0
    · rw [if_neg (not_not.mpr hi)] at h₁
      cases h₁
      obtain ⟨hgrew, htensor, hin⟩ := ih hid h
      refine ⟨hgrew, ?_, ?_⟩
      · rw [htensor]
        congr 1
        funext k
        by_cases hk : k = i
        · subst hk
          simp [hi]
        · simp [hk]
      · intro k hk hne
        rcases mem_cons.mp hk with rfl | hk
        · exact absurd hi hne
        · exact hin k hk hne
    · rw [if_pos hi] at h₁
      obtain ⟨_, m₂, h₂, h₁⟩ := building_bind.mp h₁
      cases h₁
      obtain ⟨hmem, hgrew₂⟩ := hcreate _ _ _ h₂
      obtain ⟨hgrew₁, htensor₁⟩ := hgrew₂.editAfter hid fun r => r.withSrc (update r.src i (t.src i))
      obtain ⟨hgrew, htensor, hin⟩ := ih (hgrew₁.sub hid) h
      refine ⟨hgrew₁.trans hgrew fun x hx => ⟨hx, hx ▸ hid⟩, ?_, ?_⟩
      · rw [htensor, htensor₁]
        simp only [GgmlTensor.withSrc]
        congr 1
        funext k
        by_cases hk : k = i
        · subst hk
          simp [hi]
        · simp [hk]
      · intro k hk hne
        rcases mem_cons.mp hk with rfl | hk
        · exact hgrew.sub hmem
        · exact hin k hk hne

theorem Grew.then (h : Grew w tensorPtrs capacity (· = id) m m') (h' : Grew w tensorPtrs capacity (· = id) m' m'')
    (hid : id ∈ m.ids) : Grew w tensorPtrs capacity (· = id) m m'' :=
  h.trans h' fun _ hx => ⟨hx, hx ▸ hid⟩

theorem linkNode_spec (hcreate : Creates w tensorPtrs capacity create) (hid : id ∈ m.ids)
    (hm : m.tensor id = w.tensorOf t) (h : linkNode create id t m = .ok () m') :
    Grew w tensorPtrs capacity (· = id) m m' ∧ m'.tensor id = w.rebuilt t ∧ Linked t m'.ids := by
  obtain ⟨_, m₁, h₁, h⟩ := building_bind.mp h
  obtain ⟨hgrew₁, htensor₁, hin₁⟩ := linkSrcs_spec hcreate _ hid h₁
  have hsrc : m₁.tensor id = (w.tensorOf t).withSrc t.src := by
    rw [htensor₁, hm]
    simp only [GgmlTensor.withSrc]
    congr 1
    funext i
    by_cases hi : t.src i = 0
    · rw [if_neg fun h => h.2 hi, hi]
      rfl
    · exact if_pos ⟨mem_finRange i, hi⟩
  obtain ⟨_, m₂, h₂, h⟩ := building_bind.mp h
  cases h
  have hgrew₃ : Grew w tensorPtrs capacity (· = id) m₂ (m₂.edit id fun r => { r with viewOffs := t.viewOffs }) :=
    Grew.edit m₂ id _
  unfold linkViewSrc at h₂
  by_cases hv : t.viewSrc = 0
  · rw [if_neg (not_not.mpr hv)] at h₂
    cases h₂
    refine ⟨hgrew₁.then hgrew₃ hid, ?_, fun i hi => hin₁ i (mem_finRange i) hi, fun hne => absurd hv hne⟩
    show update m₁.tensor id _ id = _
    rw [Function.update_self, hsrc, Worker.rebuilt, hv]
    rfl
  · rw [if_pos hv] at h₂
    obtain ⟨_, m₄, h₄, h₂⟩ := building_bind.mp h₂
    cases h₂
    obtain ⟨hmem, hgrew₄⟩ := hcreate _ _ _ h₄
    obtain ⟨hgrew₂, htensor₂⟩ := hgrew₄.editAfter (hgrew₁.sub hid) fun r => { r with viewSrc := t.viewSrc }
    have hgrew : Grew w tensorPtrs capacity (· = id) m₁ _ := hgrew₂.then hgrew₃ (hgrew₁.sub hid)
    refine ⟨hgrew₁.then hgrew hid, ?_, fun i hi => hgrew.sub (hin₁ i (mem_finRange i) hi), fun _ => hmem⟩
    show update (m₄.edit id _).tensor id _ id = _
    rw [Function.update_self, htensor₂, hsrc]
    rfl

theorem deserializeTensor_ok {room : Bool} {result : GgmlTensor}
    (h : w.deserializeTensor room t = .ok result) :
    w.deserializeTensor true t = .ok (w.tensorOf t) ∧ result = w.tensorOf t ∧ room = true := by
  unfold Worker.deserializeTensor at h ⊢
  split at h
  · cases h
  · next h₁ =>
      split at h
      · cases h
      · next h₂ =>
          split at h
          · cases h
          · next h₃ =>
              split at h
              · cases h
              · next h₄ =>
                  split at h
                  · cases h
                  · next h₅ =>
                      cases h
                      have hroom : room = true := by simpa using h₃
                      rw [if_neg h₁, if_neg h₂, if_neg (by decide), if_neg h₄, if_neg h₅]
                      exact ⟨rfl, rfl, hroom⟩

/-- What `create_node` does when it returns a tensor. -/
theorem createNode_ok {fuel : Nat} {x : UInt64}
    (h : w.createNode capacity tensorPtrs (fuel + 1) x m = .ok () m') :
    x ∈ m.ids ∧ m' = m ∨ x ∉ m.ids ∧ ∃ t, tensorPtrs x = some t ∧ w.Takes t ∧ m.ids.length < capacity ∧
      linkNode (w.createNode capacity tensorPtrs fuel) x t (m.add x (w.tensorOf t)) = .ok () m' := by
  rw [Worker.createNode] at h
  obtain ⟨m₀, m₁, h₀, h⟩ := building_bind.mp h
  cases h₀
  split at h
  · next hx =>
      cases h
      exact .inl ⟨hx, rfl⟩
  · next hx =>
      cases ht : tensorPtrs x with
      | none =>
        rw [ht] at h
        cases h
      | some t =>
        rw [ht] at h
        dsimp only at h
        cases hresult : w.deserializeTensor (decide (m.ids.length < capacity)) t with
        | error e =>
          rw [hresult] at h
          cases h
        | ok result =>
          rw [hresult] at h
          dsimp only at h
          obtain ⟨htrue, rfl, hroom⟩ := deserializeTensor_ok hresult
          split at h
          · cases h
          · next hnull =>
              obtain ⟨_, m₂, h₂, h⟩ := building_bind.mp h
              cases h₂
              exact .inr ⟨hx, t, rfl, ⟨htrue, hnull⟩, of_decide_eq_true hroom, h⟩

/-- A tensor that is made is complete, with everything that it is linked to. -/
theorem createNode_spec (fuel : Nat) : Creates w tensorPtrs capacity (w.createNode capacity tensorPtrs fuel) := by
  induction fuel with
  | zero =>
    intro x m m' h
    cases h
  | succ fuel ih =>
    intro x m m' h
    rcases createNode_ok h with ⟨hx, rfl⟩ | ⟨hx, t, ht, htakes, hroom, hlink⟩
    · exact ⟨hx, .refl _⟩
    · have hin : x ∈ (m.add x (w.tensorOf t)).ids := mem_append_right _ (mem_singleton_self x)
      obtain ⟨hgrew, htensor, hlinked⟩ := linkNode_spec ih hin (Function.update_self ..) hlink
      refine ⟨hgrew.sub hin, ?_, ?_, ?_, ?_, ?_⟩
      · exact fun y hy => hgrew.sub (mem_append_left _ hy)
      · intro hm
        refine hgrew.nodup (nodup_append.mpr ⟨hm, pairwise_singleton _ _, ?_⟩)
        intro y hy z hz heq
        rw [mem_singleton.mp hz] at heq
        exact hx (heq ▸ hy)
      · intro _
        refine hgrew.room ?_
        rw [NodeMap.add, length_append]
        exact hroom
      · intro y hy _
        have hne : y ≠ x := fun heq => hx (heq ▸ hy)
        rw [hgrew.old y (mem_append_left _ hy) hne]
        exact Function.update_of_ne hne _ _
      · intro y hy hnot
        by_cases heq : y = x
        · subst heq
          exact ⟨t, ht, htakes, htensor, hlinked⟩
        · refine hgrew.new y hy fun hy' => ?_
          rcases List.mem_append.mp hy' with hy' | hy'
          · exact hnot hy'
          · exact heq (mem_singleton.mp hy')

/-! ### All tensors can be made -/

/-- The tensors of `dom` are taken by the worker and refer to each other, and there is room for them. -/
structure Closed (w : Worker) (tensorPtrs : UInt64 → Option RpcTensor) (capacity : Nat) (dom : List UInt64) : Prop where
  takes : ∀ x ∈ dom, ∃ t, tensorPtrs x = some t ∧ w.Takes t ∧ Linked t dom
  only : ∀ x t, tensorPtrs x = some t → x ∈ dom
  room : dom.length ≤ capacity

/-- The tensors that are made are of `dom`, and the recursion has room for those that are left. -/
structure Within (dom : List UInt64) (fuel : Nat) (m : NodeMap) : Prop where
  nodup : m.ids.Nodup
  sub : m.ids ⊆ dom
  fuel : dom.length - m.ids.length < fuel

variable {dom : List UInt64} {fuel : Nat}

theorem Within.grew (h : Within dom fuel m) (hc : Closed w tensorPtrs capacity dom)
    (hgrew : Grew w tensorPtrs capacity skip m m') : Within dom fuel m' := by
  have hlen : m.ids.length ≤ m'.ids.length := (subperm_of_subset h.nodup hgrew.sub).length_le
  refine ⟨hgrew.nodup h.nodup, ?_, by have := h.fuel; omega⟩
  intro y hy
  by_cases hold : y ∈ m.ids
  · exact h.sub hold
  · obtain ⟨t, ht, -⟩ := hgrew.new y hy hold
    exact hc.only y t ht

/-- The function that makes the tensors a new one is linked to succeeds. -/
def Succeeds (dom : List UInt64) (fuel : Nat) (create : UInt64 → Building Unit) : Prop :=
  ∀ y ∈ dom, ∀ m, Within dom fuel m → ∃ m', create y m = .ok () m'

theorem linkSrcs_total (hcreate : Creates w tensorPtrs capacity create)
    (hsucc : Succeeds dom fuel create) (hc : Closed w tensorPtrs capacity dom)
    (ht : ∀ i, t.src i ≠ 0 → t.src i ∈ dom) (is : List (Fin maxSrc)) (hm : Within dom fuel m)
    (hid : id ∈ m.ids) : ∃ m', is.forM (linkSrc create id t) m = .ok () m' := by
  induction is generalizing m with
  | nil => exact ⟨m, rfl⟩
  | cons i is ih =>
    by_cases hi : t.src i = 0
    · obtain ⟨m', hm'⟩ := ih hm hid
      refine ⟨m', building_bind.mpr ⟨(), m, ?_, hm'⟩⟩
      rw [linkSrc, if_neg (not_not.mpr hi)]
      rfl
    · obtain ⟨m₁, h₁⟩ := hsucc _ (ht i hi) m hm
      obtain ⟨hgrew, -⟩ := (hcreate _ _ _ h₁).2.editAfter hid fun r => r.withSrc (update r.src i (t.src i))
      obtain ⟨m', hm'⟩ := ih (hm.grew hc hgrew) (hgrew.sub hid)
      refine ⟨m', building_bind.mpr ⟨(), _, ?_, hm'⟩⟩
      rw [linkSrc, if_pos hi]
      exact building_bind.mpr ⟨(), m₁, h₁, rfl⟩

theorem linkNode_total (hcreate : Creates w tensorPtrs capacity create)
    (hsucc : Succeeds dom fuel create) (hc : Closed w tensorPtrs capacity dom) (ht : Linked t dom)
    (hm : Within dom fuel m) (hid : id ∈ m.ids) : ∃ m', linkNode create id t m = .ok () m' := by
  obtain ⟨m₁, h₁⟩ := linkSrcs_total hcreate hsucc hc ht.1 (List.finRange maxSrc) hm hid
  obtain ⟨hgrew₁, -⟩ := linkSrcs_spec hcreate _ hid h₁
  have hview : ∃ m₂, linkViewSrc create id t m₁ = .ok () m₂ := by
    by_cases hv : t.viewSrc = 0
    · rw [linkViewSrc, if_neg (not_not.mpr hv)]
      exact ⟨m₁, rfl⟩
    · obtain ⟨m₂, h₂⟩ := hsucc _ (ht.2 hv) m₁ (hm.grew hc hgrew₁)
      rw [linkViewSrc, if_pos hv]
      exact ⟨_, building_bind.mpr ⟨(), m₂, h₂, rfl⟩⟩
  obtain ⟨m₂, h₂⟩ := hview
  exact ⟨_, building_bind.mpr ⟨(), m₁, h₁, building_bind.mpr ⟨(), m₂, h₂, rfl⟩⟩⟩

theorem createNode_total (hc : Closed w tensorPtrs capacity dom) (fuel : Nat) :
    Succeeds dom fuel (w.createNode capacity tensorPtrs fuel) := by
  induction fuel with
  | zero => exact fun y _ m hm => absurd hm.fuel (Nat.not_lt_zero _)
  | succ fuel ih =>
    intro x hx m hm
    by_cases hin : x ∈ m.ids
    · refine ⟨m, ?_⟩
      rw [Worker.createNode]
      refine building_bind.mpr ⟨m, m, rfl, ?_⟩
      rw [if_pos hin]
      rfl
    · obtain ⟨t, ht, htakes, hlinked⟩ := hc.takes x hx
      have hnodup : (m.ids ++ [x]).Nodup := nodup_append.mpr ⟨hm.nodup, pairwise_singleton _ _, by
        intro y hy z hz heq
        rw [mem_singleton.mp hz] at heq
        exact hin (heq ▸ hy)⟩
      have hsub : m.ids ++ [x] ⊆ dom := by
        intro y hy
        rcases List.mem_append.mp hy with hy | hy
        · exact hm.sub hy
        · rw [mem_singleton.mp hy]
          exact hx
      have hlen : m.ids.length + 1 ≤ dom.length := by
        simpa using (subperm_of_subset hnodup hsub).length_le
      have hfuel := hm.fuel
      have hadd : Within dom fuel (m.add x (w.tensorOf t)) := by
        refine ⟨hnodup, hsub, ?_⟩
        rw [NodeMap.add, length_append, length_singleton]
        omega
      obtain ⟨m', hm'⟩ := linkNode_total (createNode_spec fuel) ih hc hlinked hadd
        (mem_append_right _ (mem_singleton_self x))
      refine ⟨m', ?_⟩
      have hroom : m.ids.length < capacity := Nat.lt_of_lt_of_le hlen hc.room
      rw [Worker.createNode]
      refine building_bind.mpr ⟨m, m, rfl, ?_⟩
      rw [if_neg hin, ht]
      dsimp only
      rw [decide_eq_true hroom, htakes.1]
      dsimp only
      rw [if_neg htakes.2]
      exact building_bind.mpr ⟨(), _, rfl, hm'⟩

/-! ### What arrives of a tensor -/

/-- The tensor of the worker is the node of the client. -/
structure SameNode (t r : GgmlTensor) : Prop where
  op : r.op = t.op
  opParams : r.opParams = t.opParams
  type : r.type = t.type
  ne : r.ne = t.ne
  nb : r.nb = t.nb
  flags : r.flags = t.flags
  viewOffs : r.viewOffs = t.viewOffs
  data : r.data = t.data
  src : r.src = t.src
  viewSrc : r.viewSrc = t.viewSrc

/-- The tensor of the worker is a leaf with the shape and the address of the one of the client. -/
structure SameLeaf (t r : GgmlTensor) : Prop where
  op : r.op = 0
  type : r.type = t.type
  ne : r.ne = t.ne
  nb : r.nb = t.nb
  data : r.data = t.data
  src : r.src = fun _ => 0
  viewSrc : r.viewSrc = 0

/-- A tensor is where the worker can have it: in a buffer of the worker, or it has no data. -/
def Placed (b : Option RemoteBuffer) (t : GgmlTensor) : Prop :=
  match b with
  | some b => b.isMeta = true ∨ Worker.inBuffer b t
  | none => t.data = 0

/-- A tensor of the graph arrives as it is: its extents and strides have 32 bits, the worker knows its type and operation,
and it is where the worker can have it. -/
structure Arrives (c : Client) (w : Worker) (nodes : List UInt64) (id : UInt64) : Prop where
  ne : ∀ i, 0 ≤ (c.heap id).ne i ∧ (c.heap id).ne i < 4294967296
  nb : ∀ i, ((c.heap id).nb i).toNat < 2 ^ 32
  type : (c.heap id).type.toNat < ggmlTypeCount
  blck : ggmlBlckSize (c.heap id).type.toNat ≠ 0
  op : id ∈ nodes → (c.heap id).op < ggmlOpCount
  placed : Placed ((c.remotePtr (c.heap id).buffer).bind w.lookup) (c.heap id)

theorem uint_narrow {u : UInt64} : u.toUInt32.toUInt64 = u ↔ u.toNat < 2 ^ 32 := by
  rw [← UInt64.toNat_inj, UInt32.toNat_toUInt64, UInt64.toNat_toUInt32]
  constructor
  · intro h
    have := Nat.mod_lt u.toNat (show 0 < 2 ^ 32 by decide)
    omega
  · exact Nat.mod_eq_of_lt

theorem int_narrow {x : Int64} : x.toUInt64.toUInt32.toUInt64.toInt64 = x ↔ 0 ≤ x ∧ x < 4294967296 := by
  have hbits : x.toUInt64.toUInt32.toUInt64.toInt64 = x ↔ x.toUInt64.toNat < 2 ^ 32 := by
    rw [← uint_narrow]
    constructor
    · intro h
      simpa using congrArg Int64.toUInt64 h
    · intro h
      rw [h, Int64.toInt64_toUInt64]
  have hint : x.toInt = (x.toUInt64.toNat : Int).bmod (2 ^ 64) := by
    rw [← Int64.toInt_toBitVec, BitVec.toInt_eq_toNat_bmod]
    rfl
  have hlt : x.toUInt64.toNat < 2 ^ 64 := x.toUInt64.toNat_lt
  have hzero : (0 : Int64).toInt = 0 := rfl
  have hbound : (4294967296 : Int64).toInt = 4294967296 := rfl
  rw [hbits, Int64.le_iff_toInt_le, Int64.lt_iff_toInt_lt, hint, hzero, hbound]
  generalize x.toUInt64.toNat = n at hlt
  rw [Int.bmod_def]
  omega

variable {c : Client} {nodes : List UInt64} {g : Graph}

structure SameShape (c : Client) (w : Worker) (nodes : List UInt64) (id : UInt64) : Prop where
  ne : (w.tensorOf (c.wire nodes id)).ne = (c.heap id).ne
  nb : (w.tensorOf (c.wire nodes id)).nb = (c.heap id).nb
  data : (w.tensorOf (c.wire nodes id)).data = (c.heap id).data

theorem wire_shape (c : Client) (nodes : List UInt64) (id : UInt64) :
    (c.wire nodes id).type = (c.heap id).type ∧ (c.wire nodes id).buffer = (c.remotePtr (c.heap id).buffer).getD 0 ∧
      (c.wire nodes id).data = (if (c.remotePtr (c.heap id).buffer).isSome then (c.heap id).data else 0) ∧
      (c.wire nodes id).ne = (fun i => ((c.heap id).ne i).toUInt64.toUInt32) ∧
      (c.wire nodes id).nb = fun i => ((c.heap id).nb i).toUInt32 := by
  unfold Client.wire
  split
  · exact ⟨rfl, rfl, rfl, rfl, rfl⟩
  · exact ⟨rfl, rfl, rfl, rfl, rfl⟩

theorem lookup_wire (c : Client) (w : Worker) (nodes : List UInt64) (id : UInt64) :
    w.lookup (c.wire nodes id).buffer = (c.remotePtr (c.heap id).buffer).bind w.lookup := by
  rw [(wire_shape c nodes id).2.1]
  cases c.remotePtr (c.heap id).buffer with
  | none => rfl
  | some r => rfl

theorem nbytes_eq {t r : GgmlTensor} (htype : r.type = t.type) (hne : r.ne = t.ne) (hnb : r.nb = t.nb) :
    nbytes r = nbytes t := by
  simp only [nbytes, htype, hne, hnb]

theorem lookup_zero (w : Worker) : w.lookup 0 = none := if_pos rfl

theorem tensorOf_buffer_eq_zero : (w.tensorOf t).buffer = 0 ↔ w.lookup t.buffer = none := by
  cases hb : w.lookup t.buffer with
  | none => simp [Worker.tensorOf, hb]
  | some b =>
    have hne : t.buffer ≠ 0 := by
      intro h0
      rw [h0, lookup_zero] at hb
      cases hb
    simp [Worker.tensorOf, hb, hne]

/-- What the worker checks of a tensor -/
theorem takes_iff :
    w.Takes t ↔ t.type.toNat < ggmlTypeCount ∧ ggmlBlckSize t.type.toNat ≠ 0 ∧ t.op < ggmlOpCount ∧
      Placed (w.lookup t.buffer) (w.tensorOf t) := by
  have hnull : ¬((w.tensorOf t).buffer = 0 ∧ (w.tensorOf t).data ≠ 0) ↔
      (w.lookup t.buffer = none → (w.tensorOf t).data = 0) := by
    rw [tensorOf_buffer_eq_zero]
    tauto
  have hdeser : w.deserializeTensor true t = .ok (w.tensorOf t) ↔ t.type.toNat < ggmlTypeCount ∧
      ggmlBlckSize t.type.toNat ≠ 0 ∧ t.op < ggmlOpCount ∧
        ∀ b, w.lookup t.buffer = some b → b.isMeta = true ∨ Worker.inBuffer b (w.tensorOf t) := by
    have hbounds : ¬(∃ b ∈ w.lookup t.buffer, b.isMeta = false ∧ ¬Worker.inBuffer b (w.tensorOf t)) ↔
        ∀ b, w.lookup t.buffer = some b → b.isMeta = true ∨ Worker.inBuffer b (w.tensorOf t) := by
      simp only [not_exists, not_and, not_not, mem_def]
      refine forall_congr' fun b => imp_congr_right fun _ => ?_
      cases b.isMeta with
      | false => simp
      | true => simp
    rw [← hbounds, Worker.deserializeTensor]
    split
    · next h => simp [Nat.not_lt.mpr h]
    · next htype =>
        split
        · next h => simp [h]
        · next hblck =>
            rw [if_neg (by decide)]
            split
            · next h => simp only [h, not_true_eq_false, and_false, iff_false]; exact fun h => nomatch h
            · next hin =>
                split
                · next h =>
                    have hop : ¬ t.op < ggmlOpCount := UInt32.not_lt.mpr h
                    simp [hop]
                · next h => exact ⟨fun _ => ⟨Nat.not_le.mp htype, hblck, UInt32.not_le.mp h, hin⟩, fun _ => rfl⟩
  rw [Worker.Takes, hdeser, hnull]
  cases hb : w.lookup t.buffer with
  | none =>
    simp only [Placed, reduceCtorEq, false_implies, implies_true, and_true, true_implies, and_assoc]
  | some b => simp only [Placed, some.injEq, forall_eq', reduceCtorEq, false_implies, and_true]

/-- The worker takes a tensor and has its shape if and only if it arrives. -/
theorem arrives_iff : Arrives c w nodes id ↔ w.Takes (c.wire nodes id) ∧ SameShape c w nodes id := by
  obtain ⟨htype, -, hdata, hne, hnb⟩ := wire_shape c nodes id
  have hlookup := lookup_wire c w nodes id
  have hnes : (w.tensorOf (c.wire nodes id)).ne = (c.heap id).ne ↔
      ∀ i, 0 ≤ (c.heap id).ne i ∧ (c.heap id).ne i < 4294967296 := by
    rw [funext_iff]
    refine forall_congr' fun i => ?_
    rw [← int_narrow]
    simp only [Worker.tensorOf, hne]
  have hnbs : (w.tensorOf (c.wire nodes id)).nb = (c.heap id).nb ↔ ∀ i, ((c.heap id).nb i).toNat < 2 ^ 32 := by
    rw [funext_iff]
    refine forall_congr' fun i => ?_
    rw [← uint_narrow]
    simp only [Worker.tensorOf, hnb]
  have hop : (c.wire nodes id).op < ggmlOpCount ↔ (id ∈ nodes → (c.heap id).op < ggmlOpCount) := by
    unfold Client.wire
    split
    · next hin => exact ⟨fun h _ => h, fun h => h hin⟩
    · next hin => exact ⟨fun _ h => absurd h hin, fun _ => (by decide : (0 : UInt32) < ggmlOpCount)⟩
  -- Of a tensor with the same shape and address the worker checks the bounds of the original.
  have hplaced : SameShape c w nodes id → ∀ b, Placed b (w.tensorOf (c.wire nodes id)) ↔ Placed b (c.heap id) := by
    intro hshape b
    have hbytes : nbytes (w.tensorOf (c.wire nodes id)) = nbytes (c.heap id) := nbytes_eq htype hshape.ne hshape.nb
    cases b with
    | none => simp only [Placed, hshape.data]
    | some b => simp only [Placed, Worker.inBuffer, hshape.data, hbytes]
  rw [takes_iff, htype, hop, hlookup]
  constructor
  · intro h
    have hsame : (w.tensorOf (c.wire nodes id)).data = (c.heap id).data := by
      show (c.wire nodes id).data = _
      rw [hdata]
      cases hr : c.remotePtr (c.heap id).buffer with
      | none =>
        have hzero := h.placed
        rw [hr] at hzero
        exact hzero.symm
      | some r => rfl
    have hshape : SameShape c w nodes id := ⟨hnes.mpr h.ne, hnbs.mpr h.nb, hsame⟩
    exact ⟨⟨h.type, h.blck, h.op, (hplaced hshape _).mpr h.placed⟩, hshape⟩
  · rintro ⟨⟨ht, hblck, ho, hp⟩, hshape⟩
    exact ⟨hnes.mp hshape.ne, hnbs.mp hshape.nb, ht, hblck, ho, (hplaced hshape _).mp hp⟩

/-! ### The graph -/

/-- The worker has the graph of the client: the nodes in their order, each with the links to the same tensors, and the
other tensors they refer to as leaves. -/
structure Shipped (c : Client) (nodes : List UInt64) (g : Graph) : Prop where
  order : g.nodes = nodes.map some
  node : ∀ id ∈ nodes, id ∈ g.map.ids ∧ SameNode (c.heap id) (g.map.tensor id)
  leaf : ∀ node ∈ nodes, ∀ id ∈ c.refs node, id ≠ 0 → id ∉ nodes →
    id ∈ g.map.ids ∧ SameLeaf (c.heap id) (g.map.tensor id)

theorem addNode_ok {g' : Graph} (h0 : id ≠ 0) (h : w.addNode capacity fuel tensorPtrs g id = .ok g') :
    g'.nodes = g.nodes ++ [some id] ∧ w.createNode capacity tensorPtrs fuel id g.map = .ok () g'.map := by
  unfold Worker.addNode at h
  split at h
  · next hm =>
      cases h
      exact ⟨rfl, hm⟩
  · cases h
  · rw [if_pos h0] at h
    cases h

theorem addNodes_spec (ns : List UInt64) (h0 : 0 ∉ ns) {g' : Graph}
    (h : ns.foldlM (w.addNode capacity fuel tensorPtrs) g = .ok g') :
    g'.nodes = g.nodes ++ ns.map some ∧ Grew w tensorPtrs capacity (fun _ => False) g.map g'.map ∧
      ∀ id ∈ ns, id ∈ g'.map.ids := by
  induction ns generalizing g with
  | nil =>
    cases h
    exact ⟨by simp, .refl _, fun id hid => nomatch hid⟩
  | cons n ns ih =>
    rw [foldlM_cons] at h
    obtain ⟨h0n, h0ns⟩ := not_or.mp (mt mem_cons.mpr h0)
    cases hn : w.addNode capacity fuel tensorPtrs g n with
    | error e =>
      rw [hn] at h
      cases h
    | ok g₁ =>
      rw [hn] at h
      obtain ⟨hnodes₁, hcreate⟩ := addNode_ok (fun heq => h0n heq.symm) hn
      obtain ⟨hmem₁, hgrew₁⟩ := createNode_spec fuel n _ _ hcreate
      obtain ⟨hnodes, hgrew, hmem⟩ := ih h0ns h
      refine ⟨by rw [hnodes, hnodes₁]; simp, hgrew₁.trans hgrew fun _ hf => hf.elim, ?_⟩
      intro id hid
      rcases mem_cons.mp hid with rfl | hid
      · exact hgrew.sub hmem₁
      · exact hmem id hid

theorem addNodes_total (hc : Closed w tensorPtrs capacity dom) (ns : List UInt64) (hns : ns ⊆ dom)
    (hg : Within dom fuel g.map) : ∃ g', ns.foldlM (w.addNode capacity fuel tensorPtrs) g = .ok g' := by
  induction ns generalizing g with
  | nil => exact ⟨g, rfl⟩
  | cons n ns ih =>
    obtain ⟨m, hm⟩ := createNode_total hc fuel n (hns mem_cons_self) g.map hg
    have hgrew := (createNode_spec fuel n _ _ hm).2
    obtain ⟨g', hg'⟩ := ih (fun x hx => hns (mem_cons_of_mem n hx)) (g := ⟨g.nodes ++ [some n], m⟩)
      (hg.grew hc hgrew)
    refine ⟨g', ?_⟩
    have hadd : w.addNode capacity fuel tensorPtrs g n = .ok ⟨g.nodes ++ [some n], m⟩ := by
      rw [Worker.addNode, hm]
    rw [foldlM_cons, hadd]
    exact hg'

theorem wire_linked : Linked (c.wire nodes id) (c.graphIds nodes) := by
  obtain ⟨-, -, hmem⟩ := Client.collect_spec c nodes
  unfold Client.wire
  split
  · next hin =>
      constructor
      · intro i hi
        refine (hmem _).mpr (.inr ⟨hi, id, hin, ?_⟩)
        exact mem_append_left _ (mem_ofFn.mpr ⟨i, rfl⟩)
      · intro hv
        exact (hmem _).mpr (.inr ⟨hv, id, hin, mem_append_right _ (mem_singleton_self _)⟩)
  · exact ⟨fun i hi => absurd rfl hi, fun hv => absurd rfl hv⟩

/-- A node of a graph is the same on the worker if its shape is, and a leaf is too. -/
theorem same_of_shape (hshape : SameShape c w nodes id)
    (htensor : g.map.tensor id = w.rebuilt (c.wire nodes id)) :
    (id ∈ nodes → SameNode (c.heap id) (g.map.tensor id)) ∧ (id ∉ nodes → SameLeaf (c.heap id) (g.map.tensor id)) := by
  obtain ⟨hne, hnb, hdata⟩ := hshape
  rw [htensor]
  constructor
  · intro hin
    have hwire : c.wire nodes id = c.serialize id := if_pos hin
    rw [hwire] at hne hnb hdata ⊢
    exact ⟨rfl, rfl, rfl, hne, hnb, rfl, rfl, hdata, rfl, rfl⟩
  · intro hnot
    have hwire : c.wire nodes id = c.serializeLeaf id := if_neg hnot
    rw [hwire] at hne hnb hdata ⊢
    exact ⟨rfl, rfl, hne, hnb, hdata, rfl, rfl⟩

theorem refs_linked {node : UInt64} {ids : List UInt64} (hnode : node ∈ nodes)
    (hlinked : Linked (c.wire nodes node) ids) (href : id ∈ c.refs node) (hne : id ≠ 0) : id ∈ ids := by
  have hwire : c.wire nodes node = c.serialize node := if_pos hnode
  rw [hwire] at hlinked
  rcases List.mem_append.mp href with href | href
  · obtain ⟨i, rfl⟩ := mem_ofFn.mp href
    exact hlinked.1 i hne
  · rw [mem_singleton.mp href] at hne ⊢
    exact hlinked.2 hne

/-- From the first `k` tensors of a graph the worker builds it if and only if these are all, there is room for them and
all of them arrive. -/
theorem buildGraph_iff (c : Client) (w : Worker) (h0 : 0 ∉ nodes) (hn : nodes.length < 2 ^ 32)
    (k : Nat) :
    (∃ g, w.buildGraph nodes (((c.graphIds nodes).take k).map (c.wire nodes)) = .ok g ∧ Shipped c nodes g) ↔
      (c.graphIds nodes).length ≤ k ∧ nodes.length + (c.graphIds nodes).length < 2 ^ 32 ∧
        ∀ id ∈ c.graphIds nodes, Arrives c w nodes id := by
  obtain ⟨-, hnodup, hmem⟩ := Client.collect_spec c nodes
  have hptrs : (fun id => (((c.graphIds nodes).take k).map (c.wire nodes)).find? fun t => t.id = id) =
      fun id => if id ∈ (c.graphIds nodes).take k then some (c.wire nodes id) else none :=
    funext fun id => Client.find_wire c nodes _ id
  unfold Worker.buildGraph
  rw [hptrs, length_map]
  constructor
  · rintro ⟨g, hg, hshipped⟩
    obtain ⟨-, hgrew, hnodes⟩ := addNodes_spec nodes h0 hg
    have hnew : ∀ id ∈ g.map.ids, id ∈ (c.graphIds nodes).take k ∧ w.Takes (c.wire nodes id) ∧
        g.map.tensor id = w.rebuilt (c.wire nodes id) ∧ Linked (c.wire nodes id) g.map.ids := by
      intro id hid
      obtain ⟨t, ht, htakes, htensor, hlinked⟩ := hgrew.new id hid not_mem_nil
      obtain ⟨hin, ht⟩ := ite_none_right_eq_some.mp ht
      cases ht
      exact ⟨hin, htakes, htensor, hlinked⟩
    -- Everything that the nodes refer to has been made.
    have hall : c.graphIds nodes ⊆ g.map.ids := by
      intro id hid
      rcases (hmem id).mp hid with hin | ⟨hne, node, hnode, href⟩
      · exact hnodes id hin
      · exact refs_linked hnode (hnew node (hnodes node hnode)).2.2.2 href hne
    have hlen : (c.graphIds nodes).length ≤ ((c.graphIds nodes).take k).length :=
      (subperm_of_subset hnodup fun id hid => (hnew id (hall hid)).1).length_le
    rw [length_take] at hlen hgrew
    have hroom : g.map.ids.length ≤ _ := hgrew.room (Nat.zero_le _)
    have hcount : (c.graphIds nodes).length ≤ g.map.ids.length := (subperm_of_subset hnodup hall).length_le
    refine ⟨by omega, by omega, fun id hid => ?_⟩
    obtain ⟨-, htakes, htensor, -⟩ := hnew id (hall hid)
    refine arrives_iff.mpr ⟨htakes, ?_⟩
    rcases (hmem id).mp hid with hin | ⟨hne, node, hnode, href⟩
    · have hsame := (hshipped.node id hin).2
      rw [htensor] at hsame
      exact ⟨hsame.ne, hsame.nb, hsame.data⟩
    · by_cases hin : id ∈ nodes
      · have hsame := (hshipped.node id hin).2
        rw [htensor] at hsame
        exact ⟨hsame.ne, hsame.nb, hsame.data⟩
      · have hsame := (hshipped.leaf node hnode id href hne hin).2
        rw [htensor] at hsame
        exact ⟨hsame.ne, hsame.nb, hsame.data⟩
  · rintro ⟨hk, hroom, harrives⟩
    rw [take_of_length_le hk]
    have hc : Closed w (fun id => if id ∈ c.graphIds nodes then some (c.wire nodes id) else none)
        ((nodes.length + (c.graphIds nodes).length) % 2 ^ 32) (c.graphIds nodes) := by
      refine ⟨fun x hx => ⟨_, if_pos hx, (arrives_iff.mp (harrives x hx)).1, wire_linked⟩, ?_, by omega⟩
      intro x t ht
      exact (ite_none_right_eq_some.mp ht).1
    have hstart : Within (c.graphIds nodes) ((c.graphIds nodes).length + 1) ({} : NodeMap) :=
      ⟨List.Pairwise.nil, nil_subset _, by simp⟩
    obtain ⟨g, hg⟩ := addNodes_total hc nodes (fun id hid => (hmem id).mpr (.inl hid)) (g := {}) hstart
    obtain ⟨hnodes, hgrew, hmade⟩ := addNodes_spec nodes h0 hg
    have hsame : ∀ id ∈ g.map.ids, (id ∈ nodes → SameNode (c.heap id) (g.map.tensor id)) ∧
        (id ∉ nodes → SameLeaf (c.heap id) (g.map.tensor id)) ∧ Linked (c.wire nodes id) g.map.ids := by
      intro id hid
      obtain ⟨t, ht, -, htensor, hlinked⟩ := hgrew.new id hid not_mem_nil
      obtain ⟨hin, ht⟩ := ite_none_right_eq_some.mp ht
      cases ht
      obtain ⟨hnode, hleaf⟩ := same_of_shape (arrives_iff.mp (harrives id hin)).2 htensor
      exact ⟨hnode, hleaf, hlinked⟩
    refine ⟨g, hg, hnodes, fun id hid => ⟨hmade id hid, (hsame id (hmade id hid)).1 hid⟩, ?_⟩
    intro node hnode id href hne hnot
    have hid : id ∈ g.map.ids := refs_linked hnode (hsame node (hmade node hnode)).2.2 href hne
    exact ⟨hid, (hsame id hid).2.1 hnot⟩

/-! ### The payload -/

/-- The worker reads the nodes and the tensors of a payload. -/
theorem deserializeCompute_graphTail (w : Worker) (hn : nodes.length < 2 ^ 32)
    (tensors : List RpcTensor) : w.deserializeCompute (Client.graphTail nodes tensors) =
      w.buildGraph nodes (tensors.take (tensors.length % 2 ^ 32)) := by
  have hids : ∀ ids : List UInt64, (ids.flatMap fun id => putLE 8 id.toNat).length = ids.length * 8 :=
    flatMap_length fun id => Readers.putLE_length 8 id.toNat
  have htens : ∀ ts : List RpcTensor, (ts.flatMap encodeTensor).length = ts.length * rpcTensorSize :=
    flatMap_length encodeTensor_length
  have hnodes : nodes.length % 2 ^ 32 = nodes.length := Nat.mod_eq_of_lt hn
  have hk : tensors.length % 2 ^ 32 < 2 ^ 32 := Nat.mod_lt _ (by decide)
  have hle : tensors.length % 2 ^ 32 ≤ tensors.length := Nat.mod_le _ _
  have htail : Client.graphTail nodes tensors = putLE 4 nodes.length ++ (nodes.flatMap (fun id => putLE 8 id.toNat) ++
      (putLE 4 (tensors.length % 2 ^ 32) ++ (tensors.take (tensors.length % 2 ^ 32)).flatMap encodeTensor)) := by
    rw [Client.graphTail, hnodes, take_length]
    simp only [append_assoc]
  have hlen : (Client.graphTail nodes tensors).length =
      4 + nodes.length * 8 + 4 + tensors.length % 2 ^ 32 * rpcTensorSize := by
    rw [htail]
    simp only [length_append, Readers.putLE_length, hids, htens, length_take, Nat.min_eq_left hle]
    omega
  have hcount : getLE ((Client.graphTail nodes tensors).take 4) = nodes.length := by
    rw [htail, take_left' (Readers.putLE_length 4 _), Readers.getLE_putLE (by simpa using hn)]
  have hdrop : (Client.graphTail nodes tensors).drop 4 = nodes.flatMap (fun id => putLE 8 id.toNat) ++
      (putLE 4 (tensors.length % 2 ^ 32) ++ (tensors.take (tensors.length % 2 ^ 32)).flatMap encodeTensor) := by
    rw [htail, drop_left' (Readers.putLE_length 4 _)]
  have hread : takeEach 8 nodes.length (fun bytes => UInt64.ofNat (getLE (bytes.take 8)))
      ((Client.graphTail nodes tensors).drop 4) = nodes := by
    rw [hdrop, takeEach_flatMap (f := id) (fun x : UInt64 => Readers.putLE_length 8 x.toNat), List.map_id]
    intro x rest
    rw [take_left' (Readers.putLE_length 8 _), Readers.getLE_putLE x.toNat_lt]
    exact UInt64.ofNat_toNat
  have hrest : (Client.graphTail nodes tensors).drop (4 + nodes.length * 8) =
      putLE 4 (tensors.length % 2 ^ 32) ++ (tensors.take (tensors.length % 2 ^ 32)).flatMap encodeTensor := by
    rw [← drop_drop, hdrop, drop_left' (hids nodes)]
  have hcount' : getLE (((Client.graphTail nodes tensors).drop (4 + nodes.length * 8)).take 4) =
      tensors.length % 2 ^ 32 := by
    rw [hrest, take_left' (Readers.putLE_length 4 _), Readers.getLE_putLE (by simpa using hk)]
  have hread' : takeEach rpcTensorSize (tensors.length % 2 ^ 32) decodeTensor
      (((Client.graphTail nodes tensors).drop (4 + nodes.length * 8)).drop 4) =
        tensors.take (tensors.length % 2 ^ 32) := by
    have heach := takeEach_flatMap (f := id) encodeTensor_length decodeTensor_encodeTensor
      (tensors.take (tensors.length % 2 ^ 32)) []
    rw [length_take, Nat.min_eq_left hle, append_nil, List.map_id] at heach
    rw [hrest, drop_left' (Readers.putLE_length 4 _), heach]
  unfold Worker.deserializeCompute
  dsimp only
  rw [hcount, hcount', hread, hread', hlen, if_neg (by omega), if_neg (by omega), if_neg (by omega)]

/-- The worker has rebuilt the graph of a payload, of which `header` bytes are not for `deserialize_compute`. -/
def Rebuilds (c : Client) (w : Worker) (nodes : List UInt64) (header : Nat) (payload : Option (List UInt8)) : Prop :=
  ∃ bytes g, payload = some bytes ∧ w.deserializeCompute (bytes.drop header) = .ok g ∧ Shipped c nodes g

/-- The worker rebuilds a graph if and only if all tensors of it arrive, and the output of `serialize_graph` is smaller
than 2 GiB, or the nodes and tensors of that of `serialize_graph_uid` can be counted in 32 bits. -/
theorem graph_ships_iff (c : Client) (w : Worker) (device : UInt32) (uid : UInt64) (nodes : List UInt64)
    (h0 : 0 ∉ nodes) (hn : nodes.length < 2 ^ 31) :
    (Rebuilds c w nodes 4 (c.serializeGraph device nodes) ↔
      2 * 4 + nodes.length * 8 + 4 + (c.graphIds nodes).length * rpcTensorSize < 2 ^ 31 ∧
        ∀ id ∈ c.graphIds nodes, Arrives c w nodes id) ∧
    (Rebuilds c w nodes 16 (some (c.serializeGraphUid device uid nodes)) ↔
      nodes.length + (c.graphIds nodes).length < 2 ^ 32 ∧ ∀ id ∈ c.graphIds nodes, Arrives c w nodes id) := by
  have hn' : nodes.length < 2 ^ 32 := by omega
  have hnodes : nodes.length % 2 ^ 32 = nodes.length := Nat.mod_eq_of_lt hn'
  obtain ⟨htensors, -, -⟩ := Client.collect_spec c nodes
  have hlen : (c.collectGraphTensors nodes).length = (c.graphIds nodes).length := by rw [htensors, length_map]
  have hgraph : (∃ g, w.deserializeCompute (Client.graphTail nodes (c.collectGraphTensors nodes)) = .ok g ∧
      Shipped c nodes g) ↔ (c.graphIds nodes).length ≤ (c.graphIds nodes).length % 2 ^ 32 ∧
        nodes.length + (c.graphIds nodes).length < 2 ^ 32 ∧ ∀ id ∈ c.graphIds nodes, Arrives c w nodes id := by
    rw [deserializeCompute_graphTail w hn', hlen, htensors, ← map_take]
    exact buildGraph_iff c w h0 hn' _
  constructor
  · unfold Rebuilds Client.serializeGraph
    dsimp only
    rw [hnodes, hlen]
    split
    · next hbig =>
        constructor
        · rintro ⟨bytes, g, hbytes, -⟩
          cases hbytes
        · rintro ⟨hsmall, -⟩
          have hmod := Nat.mod_le (c.graphIds nodes).length (2 ^ 32)
          have hle := Nat.mul_le_mul_right rpcTensorSize hmod
          omega
    · next hsmall =>
        constructor
        · rintro ⟨bytes, g, hbytes, hg, hshipped⟩
          cases hbytes
          rw [drop_left' (Readers.putLE_length 4 _)] at hg
          obtain ⟨hk, -, harrives⟩ := hgraph.mp ⟨g, hg, hshipped⟩
          refine ⟨?_, harrives⟩
          have hle := Nat.mul_le_mul_right rpcTensorSize hk
          omega
        · rintro ⟨hsmall, harrives⟩
          have hsize : (c.graphIds nodes).length * rpcTensorSize = (c.graphIds nodes).length * 296 := rfl
          obtain ⟨g, hg, hshipped⟩ := hgraph.mpr ⟨by omega, by omega, harrives⟩
          refine ⟨_, g, rfl, ?_, hshipped⟩
          rw [drop_left' (Readers.putLE_length 4 _)]
          exact hg
  · have hdrop : (c.serializeGraphUid device uid nodes).drop 16 =
        Client.graphTail nodes (c.collectGraphTensors nodes) := by
      refine drop_left' ?_
      simp only [length_append, Readers.putLE_length]
    constructor
    · rintro ⟨bytes, g, hbytes, hg, hshipped⟩
      cases hbytes
      rw [hdrop] at hg
      exact (hgraph.mp ⟨g, hg, hshipped⟩).2
    · rintro ⟨hroom, harrives⟩
      obtain ⟨g, hg, hshipped⟩ := hgraph.mpr ⟨by omega, hroom, harrives⟩
      refine ⟨_, g, rfl, ?_, hshipped⟩
      rw [hdrop]
      exact hg

/-- A node of 8192 × 8192 × 64 numbers of 16 bits in a buffer of 8 GiB. -/
def bigClient : Client where
  heap _ :=
    { type := 1
      buffer := 1
      ne := fun i => if i = 0 ∨ i = 1 then 8192 else if i = 2 then 64 else 1
      nb := fun i => if i = 0 then 2 else if i = 1 then 16384 else if i = 2 then 134217728 else 8589934592
      data := 4096 }
  remotePtr _ := some 7

def bigWorker : Worker where
  buffers _ := some { base := 4096, size := 8589934592 }

theorem graph_ships_iff_one :
    (Rebuilds bigClient bigWorker [5] 4 (bigClient.serializeGraph 0 [5]) ↔
      2 * 4 + 1 * 8 + 4 + (bigClient.graphIds [5]).length * rpcTensorSize < 2 ^ 31 ∧
        ∀ id ∈ bigClient.graphIds [5], Arrives bigClient bigWorker [5] id) ∧
    (Rebuilds bigClient bigWorker [5] 16 (some (bigClient.serializeGraphUid 0 3 [5])) ↔
      1 + (bigClient.graphIds [5]).length < 2 ^ 32 ∧
        ∀ id ∈ bigClient.graphIds [5], Arrives bigClient bigWorker [5] id) :=
  graph_ships_iff bigClient bigWorker 0 3 [5] (by decide) (by decide)

/-- What the worker makes of the stride of its last dimension -/
def bigStride : Option UInt64 :=
  (bigClient.serializeGraph 0 [5]).bind fun bytes =>
    (bigWorker.deserializeCompute (bytes.drop 4)).toOption.map fun g => (g.map.tensor 5).nb 3

/-- The stride of its last dimension is 8 GiB, and it arrives as 0. -/
theorem big_stride_lost :
    ∃ bytes g, bigClient.serializeGraph 0 [5] = some bytes ∧
      (bigWorker.deserializeCompute (bytes.drop 4)).toOption = some g ∧
        (g.map.tensor 5).nb 3 = 0 ∧ (bigClient.heap 5).nb 3 = 8589934592 := by
  have hstride : bigStride = some 0 := by decide +kernel
  unfold bigStride at hstride
  obtain ⟨bytes, hbytes, hrest⟩ := bind_eq_some_iff.mp hstride
  obtain ⟨g, hg, hnb⟩ := map_eq_some_iff.mp hrest
  exact ⟨bytes, g, hbytes, hg, hnb, by decide⟩

end LlamaCpp.Rpc
