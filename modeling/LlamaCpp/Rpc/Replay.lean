import LlamaCpp.Rpc.Journal
import Mathlib.Data.List.Forall2

/-!
# What a replay restores

The calls on a buffer are flattened to events that each put a layer of bytes on it.  The old buffer has the layers in the
order of the calls.  The journal has the last clear, all the paddings and the last write at every start, and a replay puts
their layers on the new buffer in that order, the writes in the order of their starts.

`reprovision_restores_iff` says that the new buffer has the bytes of the old one if and only if, at every byte that the calls
define, the layer of the last event and that of the replay have the same value.  A memset of a worker that has the command is
no event of the journal, and a clear does not undo the writes before it.
-/

namespace LlamaCpp.Rpc

open List Option

open Overlay

/-- A write of `rpc_buffer_set_tensor_impl`, relative to the start of the buffer. -/
structure Write where
  start : UInt64
  data : List UInt8
  hashed : Bool
  source : Option Source

/-- What a call does to the bytes of a buffer, relative to its start. -/
inductive Event where
  | clear (value : UInt8)
  | pad (start : UInt64) (size : Nat)
  /-- A memset that is a command of its own. -/
  | memset (start : UInt64) (value : UInt8) (size : Nat)
  | set (x : Write)

namespace Event

/-- The bytes of an event on a buffer of a size. -/
def layer (size : UInt64) : Event → Mem
  | .clear value => filled 0 size.toNat value
  | .pad start n => filled start n 0
  | .memset start value n => filled start n value
  | .set x => bytesAt x.start x.data

def clear? : Event → Option UInt8
  | .clear value => some value
  | _ => none

def pad? : Event → Option (UInt64 × Nat)
  | .pad start n => some (start, n)
  | _ => none

def set? : Event → Option Write
  | .set x => some x
  | _ => none

end Event

/-- No write after `x` has its start. -/
def LastWrite (evs : List Event) (x : Write) : Prop :=
  ∃ pre post, evs.filterMap Event.set? = pre ++ x :: post ∧ ∀ y ∈ post, y.start ≠ x.start

/-- The value of a byte after a replay: that of the write with the greatest start, of the last ones at their starts; else
zero, if it is in a padding; else that of the last clear. -/
def Replayed (size : UInt64) (evs : List Event) (p : UInt64) (v : UInt8) : Prop :=
  (∃ x, LastWrite evs x ∧ bytesAt x.start x.data p = some v ∧
    ∀ y, LastWrite evs y → bytesAt y.start y.data p ≠ none → y.start.toNat ≤ x.start.toNat) ∨
  (∀ x, LastWrite evs x → bytesAt x.start x.data p = none) ∧
    ((∃ r ∈ evs.filterMap Event.pad?, filled r.1 r.2 0 p = some v) ∨
      (∀ r ∈ evs.filterMap Event.pad?, filled r.1 r.2 0 p = none) ∧
        ∃ value ∈ (evs.filterMap Event.clear?).getLast?, filled 0 size.toNat value p = some v)

/-! ### Events of a call -/

namespace Buffer

variable (b : Buffer)

/-- A write is in the journal by its hash. -/
def byHash (amb : Ambient) (data : List UInt8) : Bool :=
  amb.weights && decide (b.serverMinor ≥ 10) || decide (data.length > hashThreshold)

/-- The slice of a model file in the journal, if a write is there by its hash. -/
def usedSource (amb : Ambient) (source : Option Source) : Option Source :=
  if amb.weights ∧ b.serverMinor ≥ 10 ∨ b.serverMinor ≥ 8 then source else none

def setEvent (amb : Ambient) (tensor : Tensor) (x : Piece) : Event :=
  .set ⟨tensor.self.data + x.offset - b.base, x.data, b.byHash amb x.data, b.usedSource amb x.source⟩

def setEvents (amb : Ambient) (tensor : Tensor) (data : List UInt8) (offset : UInt64) : List Event :=
  [b.setEvent amb tensor ⟨data, offset, amb.source 0 data.length 1 0⟩]

def events (amb : Ambient) : Call → List Event
  | .initTensor (.root id tensor) =>
    if b.isQuantized tensor.type ∧ (tensor.ne 0) % 512 ≠ 0 then
      let t := b.serialize (id, tensor)
      let r := b.padding t.type t.ne t.nb
      [.pad (tensor.data + r.1 - b.base) r.2]
    else []
  | .initTensor (.view ..) => []
  | .clear value => [.clear value]
  | .memsetTensor tensor value offset size =>
    if b.serverMinor ≥ 15 then [.memset (tensor.self.data + offset - b.base) value size]
    else b.setEvents amb tensor (List.replicate size value) offset
  | .setTensor tensor data offset => b.setEvents amb tensor data offset
  | .setTensor2d tensor data offset size nCopies strideTensor strideData =>
    ((pieces2d amb data offset size nCopies strideTensor strideData).getD []).map (b.setEvent amb tensor)

def allEvents (cs : List (Ambient × Call)) : List Event := cs.flatMap fun c => b.events c.1 c.2

end Buffer

def Call.tensor? : Call → Option Tensor
  | .initTensor tensor => some tensor
  | .clear _ => none
  | .memsetTensor tensor .. => some tensor
  | .setTensor tensor .. => some tensor
  | .setTensor2d tensor .. => some tensor

/-- The root of the views is at the place of the tensor, and in its buffer. -/
theorem resolveView_place (tensor : Tensor) (offset : UInt64) :
    (resolveView tensor offset).1.2.data + (resolveView tensor offset).2 = tensor.self.data + offset ∧
      (resolveView tensor offset).1.2.buffer = tensor.self.buffer := by
  induction tensor generalizing offset with
  | root id tensor => exact ⟨rfl, rfl⟩
  | view id tensor viewSrc ih =>
    simp only [resolveView]
    split
    · next hbuf =>
        obtain ⟨hplace, hbuffer⟩ := ih (offset + (tensor.data - viewSrc.self.data))
        refine ⟨hplace.trans ?_, hbuffer.trans hbuf⟩
        simp only [Tensor.self]
        grind
    · exact ⟨rfl, rfl⟩

theorem filled_shift (base start : UInt64) (n : Nat) (value : UInt8) (p : UInt64) :
    filled (base + start) n value (base + p) = filled start n value p := by
  have h : base + p - (base + start) = p - start := by grind
  simp only [filled, h]

theorem bytesAt_shift (base start : UInt64) (data : List UInt8) (p : UInt64) :
    bytesAt (base + start) data (base + p) = bytesAt start data p := by
  have h : base + p - (base + start) = p - start := by grind
  simp only [bytesAt, h]

/-! ### The journal of the events -/

/-- The entry of the journal has the write, and a literal one its bytes in the spill file. -/
def Stored (spill : List UInt8) (x : Write) (e : SetEntry) : Prop :=
  e.root.data + e.offset = x.start ∧ e.size = x.data.length ∧
    if x.hashed then e.spillOff = none ∧ e.hash = fnvHash x.data ∧ e.source = x.source
    else ∃ pre post, spill = pre ++ x.data ++ post ∧ e.spillOff = some pre.length

/-- The last writes of the events, in the order of their starts. -/
def lastWrites (evs : List Event) : List (Nat × Write) :=
  inserted ((evs.filterMap Event.set?).map fun x => (x.start.toNat, x))

structure Records (b : Buffer) (evs : List Event) (j : Journal) : Prop where
  sets : Related (Stored j.spill) (lastWrites evs) j.sets
  pads : (j.initTensors.map fun t =>
    (t.data + (b.padding t.type t.ne t.nb).1, (b.padding t.type t.ne t.nb).2)) = evs.filterMap Event.pad?
  clears : (if j.cleared then some j.clearValue else none) = (evs.filterMap Event.clear?).getLast?

variable {e : SetEntry} {spill : List UInt8} {x : Write} {zs : List (Nat × SetEntry)} {ev : Event}

theorem Stored.append (h : Stored spill x e) (data : List UInt8) : Stored (spill ++ data) x e := by
  obtain ⟨hstart, hsize, hkind⟩ := h
  refine ⟨hstart, hsize, ?_⟩
  split
  · next hh => rwa [if_pos hh] at hkind
  · next hh =>
      rw [if_neg hh] at hkind
      obtain ⟨pre, post, hspill, hoff⟩ := hkind
      exact ⟨pre, post ++ data, by rw [hspill]; simp only [append_assoc], hoff⟩

theorem Related.append_spill {xs : List (Nat × Write)} (h : Related (Stored spill) xs zs)
    (data : List UInt8) : Related (Stored (spill ++ data)) xs zs :=
  List.Forall₂.imp (fun _ _ hxz => ⟨hxz.1, hxz.2.append data⟩) h

theorem lastWrites_set (evs : List Event) (x : Write) :
    lastWrites (evs ++ [Event.set x]) = insertKey x.start.toNat x (lastWrites evs) := by
  have hmap : ((evs ++ [Event.set x]).filterMap Event.set?).map (fun x => (x.start.toNat, x)) =
      (evs.filterMap Event.set?).map (fun x => (x.start.toNat, x)) ++ [(x.start.toNat, x)] := by
    simp [filterMap_append, Event.set?]
  rw [lastWrites, hmap, inserted_append_singleton]
  rfl

theorem lastWrites_other (evs : List Event) (h : ev.set? = none) : lastWrites (evs ++ [ev]) = lastWrites evs := by
  simp [lastWrites, filterMap_append, h]

theorem sorted_lastWrites (evs : List Event) : Overlay.Sorted (lastWrites evs) := sorted_inserted _

theorem LastWrite.mem {evs : List Event} (h : LastWrite evs x) : .set x ∈ evs := by
  obtain ⟨pre, post, heq, -⟩ := h
  have hmem : x ∈ evs.filterMap Event.set? := by
    rw [heq]
    simp
  obtain ⟨ev, hev, hx⟩ := mem_filterMap.mp hmem
  cases ev with
  | set y =>
    cases hx
    exact hev
  | clear _ | pad _ _ | memset _ _ _ => cases hx

theorem mem_lastWrites {evs : List Event} {k : Nat} :
    (k, x) ∈ lastWrites evs ↔ k = x.start.toNat ∧ LastWrite evs x := by
  rw [lastWrites, mem_inserted_iff]
  constructor
  · rintro ⟨pre, post, heq, hpost⟩
    obtain ⟨pre', rest, hrest, rfl, hmap⟩ := map_eq_append_iff.mp heq
    obtain ⟨x', post', rfl, hx, rfl⟩ := map_eq_cons_iff.mp hmap
    obtain ⟨rfl, rfl⟩ := Prod.mk.inj hx
    refine ⟨rfl, pre', post', hrest, ?_⟩
    intro y hy heq
    exact hpost (y.start.toNat, y) (List.mem_map_of_mem hy) (congrArg UInt64.toNat heq)
  · rintro ⟨rfl, pre, post, heq, hpost⟩
    refine ⟨pre.map _, post.map _, by rw [heq, map_append, map_cons], ?_⟩
    intro y hy
    obtain ⟨y', hy', rfl⟩ := List.mem_map.mp hy
    intro heq
    exact hpost y' hy' (UInt64.toNat_inj.mp heq)

/-! ### What a call does -/

/-- The old buffer and the journal have the events, if the journal is not disabled. -/
structure Tracks (b : Buffer) (evs : List Event) (s : BufferState) : Prop where
  remote : ∀ p, s.remote (b.base + p) = overlay (evs.map (Event.layer b.size)) p
  journal : (s.journal.getD {}).disabled = true ∨ Records b evs (s.journal.getD {})

/-- What a worker has under the hashes of the writes that are in the journal by their hash is these writes. -/
def NoCollision (served : Served) (evs : List Event) : Prop :=
  ∀ x, .set x ∈ evs → x.hashed = true → ∀ src bytes, served src (fnvHash x.data) = some bytes → bytes = x.data

variable {b : Buffer} {evs : List Event} {s s' : BufferState} {j : Journal} {amb : Ambient} {served : Served}
  {tensor : Tensor}

theorem filterMap_snoc_none {δ : Type} {f : Event → Option δ} (h : f ev = none) :
    (evs ++ [ev]).filterMap f = evs.filterMap f := by
  rw [filterMap_append, filterMap_cons_none h, filterMap_nil, append_nil]

theorem filterMap_snoc_some {δ : Type} {f : Event → Option δ} {d : δ} (h : f ev = some d) :
    (evs ++ [ev]).filterMap f = evs.filterMap f ++ [d] := by
  rw [filterMap_append, filterMap_cons_some h, filterMap_nil]

theorem Records.start : Records b [] {} where
  sets := .nil
  pads := rfl
  clears := rfl

theorem Tracks.start (b : Buffer) : Tracks b [] {} where
  remote _ := rfl
  journal := .inr .start

@[simp] theorem BufferState.edit_journal (s : BufferState) (f : Journal → Journal) :
    (s.edit f).journal.getD {} = f (s.journal.getD {}) := rfl

@[simp] theorem BufferState.write_journal (s : BufferState) (layer : Mem) : (s.write layer).journal = s.journal := rfl

theorem overlay_step (ev : Event) (p : UInt64) :
    overlay ((evs ++ [ev]).map (Event.layer b.size)) p =
      (ev.layer b.size p).or (overlay (evs.map (Event.layer b.size)) p) := by
  rw [map_append, overlay_append, map_singleton, overlay_singleton]

/-- An event that is put on the old buffer, and that the journal is told of. -/
theorem Tracks.step (h : Tracks b evs s) {layer : Mem} {f : Journal → Journal}
    (hlayer : ∀ p, layer (b.base + p) = ev.layer b.size p)
    (hdisabled : ∀ j, j.disabled = true → (f j).disabled = true)
    (hrecord : ∀ j, Records b evs j → (f j).disabled = true ∨ Records b (evs ++ [ev]) (f j)) :
    Tracks b (evs ++ [ev]) ((s.edit f).write layer) where
  remote p := by
    rw [overlay_step, ← hlayer, ← h.remote]
    rfl
  journal := by
    rw [BufferState.write_journal, BufferState.edit_journal]
    rcases h.journal with hj | hj
    · exact .inl (hdisabled _ hj)
    · exact hrecord _ hj

theorem Records.clear (h : Records b evs j) (value : UInt8) :
    Records b (evs ++ [.clear value]) { j with cleared := true, clearValue := value } where
  sets := by
    rw [lastWrites_other evs rfl]
    exact h.sets
  pads := by
    rw [filterMap_snoc_none rfl]
    exact h.pads
  clears := by
    rw [filterMap_snoc_some (f := Event.clear?) rfl, getLast?_concat]
    rfl

theorem Records.memset (h : Records b evs j) (start : UInt64) (value : UInt8) (n : Nat) :
    Records b (evs ++ [.memset start value n]) j where
  sets := by
    rw [lastWrites_other evs rfl]
    exact h.sets
  pads := by
    rw [filterMap_snoc_none rfl]
    exact h.pads
  clears := by
    rw [filterMap_snoc_none rfl]
    exact h.clears

theorem Records.pad (h : Records b evs j) (t : RpcTensor) :
    Records b (evs ++ [.pad (t.data + (b.padding t.type t.ne t.nb).1) (b.padding t.type t.ne t.nb).2])
      { j with initTensors := j.initTensors ++ [t] } where
  sets := by
    rw [lastWrites_other evs rfl]
    exact h.sets
  pads := by
    rw [filterMap_snoc_some (f := Event.pad?) rfl, map_append, map_singleton, h.pads]
  clears := by
    rw [filterMap_snoc_none rfl]
    exact h.clears

theorem Related.set (h : Related (Stored spill) (lastWrites evs) zs) (hx : Stored spill x e) :
    Related (Stored spill) (lastWrites (evs ++ [Event.set x])) (insertKey x.start.toNat e zs) := by
  rw [lastWrites_set]
  exact h.insertKey hx _

/-- A write is in the journal, or it disables it. -/
theorem Records.recordSet (h : Records b evs j) (amb : Ambient) (root : RpcTensor) (offset : UInt64) (x : Write)
    (source : Option Source) (hstart : root.data - b.base + offset = x.start)
    (hsource : x.hashed = true → source = x.source) :
    (b.recordSet amb root offset x.data x.hashed source j).disabled = true ∨
      Records b (evs ++ [.set x]) (b.recordSet amb root offset x.data x.hashed source j) := by
  have hpads := h.pads.trans (filterMap_snoc_none (rfl : Event.pad? (.set x) = none)).symm
  have hclears := h.clears
  rw [← filterMap_snoc_none (rfl : Event.clear? (.set x) = none)] at hclears
  unfold Buffer.recordSet
  dsimp only
  split
  · next hd => exact .inl hd
  · split
    · next hh =>
        refine .inr ⟨?_, hpads, hclears⟩
        rw [hstart]
        refine Related.set h.sets ⟨hstart, rfl, ?_⟩
        rw [if_pos hh]
        exact ⟨rfl, rfl, hsource hh⟩
    · next hh =>
        split
        · exact .inl rfl
        · refine .inr ⟨?_, hpads, hclears⟩
          rw [hstart]
          refine Related.set (Related.append_spill h.sets x.data) ⟨hstart, rfl, ?_⟩
          rw [if_neg hh]
          exact ⟨j.spill, [], by rw [append_nil], rfl⟩

theorem recordSet_disabled (amb : Ambient) (root : RpcTensor) (offset : UInt64) (data : List UInt8) (hashed : Bool)
    (source : Option Source) (hd : j.disabled = true) :
    (b.recordSet amb root offset data hashed source j).disabled = true := by
  rw [Buffer.recordSet, if_pos hd]
  exact hd

theorem place_resolve (hbuf : tensor.self.buffer = b.id) (hrpc : (b.remotePtr b.id).isSome)
    (offset : UInt64) :
    (b.serialize (resolveView tensor offset).1).data + (resolveView tensor offset).2 = tensor.self.data + offset := by
  obtain ⟨hplace, hbuffer⟩ := resolveView_place tensor offset
  have hsome : (b.remotePtr (resolveView tensor offset).1.2.buffer).isSome := by
    rw [hbuffer, hbuf]
    exact hrpc
  have hdata : (b.serialize (resolveView tensor offset).1).data = (resolveView tensor offset).1.2.data :=
    if_pos hsome
  rw [hdata, hplace]

theorem Tracks.setTensorImpl (h : Tracks b evs s) (hbuf : tensor.self.buffer = b.id)
    (hrpc : (b.remotePtr b.id).isSome) (x : Piece) (hold : NoCollision served [b.setEvent amb tensor x])
    (hs' : b.setTensorImpl served amb tensor x.data x.offset x.source s = some s') :
    Tracks b (evs ++ [b.setEvent amb tensor x]) s' := by
  have hplace := place_resolve hbuf hrpc x.offset
  set root := b.serialize (resolveView tensor x.offset).1 with hroot
  set offset := (resolveView tensor x.offset).2 with hoffset
  have hstart : root.data - b.base + offset = tensor.self.data + x.offset - b.base := by
    rw [← hplace]
    grind
  have hbase : b.base + (tensor.self.data + x.offset - b.base) = root.data + offset := by
    rw [hplace]
    grind
  -- The write is `x` on every path, as what the worker has under its hash is its data.
  have hstep : ∀ hashed src, b.byHash amb x.data = hashed → (hashed = true → src = b.usedSource amb x.source) →
      Tracks b (evs ++ [b.setEvent amb tensor x])
        ((s.edit (b.recordSet amb root offset x.data hashed src)).write (bytesAt (root.data + offset) x.data)) := by
    rintro _ src rfl hsrc
    refine h.step ?_ (fun j hd => recordSet_disabled _ _ _ _ _ _ hd) ?_
    · intro p
      rw [← hbase, bytesAt_shift]
      rfl
    · intro j hj
      exact hj.recordSet amb root offset ⟨_, x.data, b.byHash amb x.data, b.usedSource amb x.source⟩ src hstart hsrc
  have hdata : b.byHash amb x.data = true → ∀ src bytes, served src (fnvHash x.data) = some bytes → bytes = x.data :=
    hold ⟨_, x.data, _, _⟩ (mem_singleton_self _)
  unfold Buffer.setTensorImpl at hs'
  dsimp only at hs'
  rw [← hroot, ← hoffset] at hs'
  split at hs'
  · next hw =>
      have hhash : b.byHash amb x.data = true := by simp [Buffer.byHash, hw.1, hw.2]
      have hsrc : x.source = b.usedSource amb x.source := (if_pos (.inl hw)).symm
      split at hs'
      · obtain ⟨bytes, hbytes, rfl⟩ := map_eq_some_iff.mp hs'
        rw [hdata hhash none bytes hbytes]
        exact hstep true x.source hhash fun _ => hsrc
      · cases hs'
        exact hstep true x.source hhash fun _ => hsrc
  · next hw =>
      split at hs'
      · next hbig =>
          have hhash : b.byHash amb x.data = true := by simp [Buffer.byHash, hbig]
          have hsrc : (if b.serverMinor ≥ 8 then x.source else none) = b.usedSource amb x.source := by
            simp only [Buffer.usedSource, hw, false_or]
          split at hs'
          · next bytes hbytes =>
              cases hs'
              rw [hdata hhash _ bytes hbytes]
              exact hstep true _ hhash fun _ => hsrc
          · cases hs'
            exact hstep true _ hhash fun _ => hsrc
      · next hbig =>
          cases hs'
          refine hstep false none ?_ fun h => nomatch h
          simpa [Buffer.byHash, hbig] using hw

theorem NoCollision.mono {evs' : List Event} (h : NoCollision served evs) (hsub : evs' ⊆ evs) :
    NoCollision served evs' :=
  fun x hx => h x (hsub hx)

theorem Tracks.pieces (h : Tracks b evs s) (hbuf : tensor.self.buffer = b.id)
    (hrpc : (b.remotePtr b.id).isSome) (xs : List Piece)
    (hold : NoCollision served (xs.map (b.setEvent amb tensor)))
    (hs' : xs.foldlM (fun s x => b.setTensorImpl served amb tensor x.data x.offset x.source s) s = some s') :
    Tracks b (evs ++ xs.map (b.setEvent amb tensor)) s' := by
  induction xs generalizing evs s with
  | nil =>
    cases hs'
    rwa [map_nil, append_nil]
  | cons x xs ih =>
    rw [foldlM_cons] at hs'
    obtain ⟨t, ht, hs'⟩ := bind_eq_some_iff.mp hs'
    have hx : Tracks b (evs ++ [b.setEvent amb tensor x]) t :=
      h.setTensorImpl hbuf hrpc x (hold.mono (by simp)) ht
    have hxs := ih hx (hold.mono (by simp)) hs'
    rwa [append_assoc] at hxs

theorem Tracks.setTensor (h : Tracks b evs s) (hbuf : tensor.self.buffer = b.id)
    (hrpc : (b.remotePtr b.id).isSome) {data : List UInt8} {offset : UInt64}
    (hold : NoCollision served (b.setEvents amb tensor data offset))
    (hs' : b.setTensor served amb tensor data offset s = some s') :
    Tracks b (evs ++ b.setEvents amb tensor data offset) s' :=
  h.setTensorImpl hbuf hrpc ⟨data, offset, amb.source 0 data.length 1 0⟩ hold hs'

theorem Tracks.call (h : Tracks b evs s) (hrpc : (b.remotePtr b.id).isSome) {c : Call}
    (hbuf : ∀ tensor ∈ c.tensor?, tensor.self.buffer = b.id) (hold : NoCollision served (b.events amb c))
    (hs' : b.call served amb s c = some s') : Tracks b (evs ++ b.events amb c) s' := by
  cases c with
  | initTensor tensor =>
    cases hs'
    cases tensor with
    | view id tensor viewSrc => simpa [Buffer.initTensor, Buffer.events] using h
    | root id tensor =>
      have hsome : (b.remotePtr tensor.buffer).isSome := by
        rw [show tensor.buffer = b.id from hbuf _ rfl]
        exact hrpc
      have hdata : (b.serialize (id, tensor)).data = tensor.data := if_pos hsome
      simp only [Buffer.initTensor, Buffer.events]
      split
      · have hplace : ∀ d : UInt64, tensor.data + d - b.base = tensor.data - b.base + d := by grind
        refine h.step ?_ (fun j hd => hd) ?_
        · intro p
          simp only [Buffer.padded, Event.layer, hdata]
          have hshift : tensor.data + (b.padding (b.serialize (id, tensor)).type (b.serialize (id, tensor)).ne
              (b.serialize (id, tensor)).nb).1 = b.base + (tensor.data + (b.padding (b.serialize (id, tensor)).type
                (b.serialize (id, tensor)).ne (b.serialize (id, tensor)).nb).1 - b.base) := by grind
          rw [hshift, filled_shift]
          grind
        · intro j hj
          rw [hplace, ← hdata]
          exact .inr (hj.pad { b.serialize (id, tensor) with data := (b.serialize (id, tensor)).data - b.base })
      · rwa [append_nil]
  | clear value =>
    cases hs'
    refine h.step ?_ (fun j hd => hd) fun j hj => .inr (hj.clear value)
    intro p
    have hzero : b.base = b.base + 0 := by grind
    conv_lhs => rw [hzero]
    rw [show b.base + 0 + p = b.base + p by grind, filled_shift]
    rfl
  | memsetTensor tensor value offset size =>
    simp only [Buffer.call, Buffer.memsetTensor, Buffer.events] at hs' hold ⊢
    split at hs'
    · next hminor =>
        cases hs'
        rw [if_pos hminor] at hold ⊢
        have hplace := place_resolve (hbuf _ rfl) hrpc offset
        refine ⟨?_, ?_⟩
        · intro p
          rw [overlay_step, ← h.remote]
          have hshift : tensor.self.data + offset = b.base + (tensor.self.data + offset - b.base) := by grind
          simp only [BufferState.write, cover, Event.layer]
          rw [hplace, hshift, filled_shift]
          grind
        · rcases h.journal with hj | hj
          · exact .inl hj
          · exact .inr (hj.memset _ value size)
    · next hminor =>
        rw [if_neg hminor] at hold ⊢
        exact h.setTensor (hbuf _ rfl) hrpc hold hs'
  | setTensor tensor data offset => exact h.setTensor (hbuf _ rfl) hrpc hold hs'
  | setTensor2d tensor data offset size nCopies strideTensor strideData =>
    obtain ⟨pieces, hpieces, hs'⟩ := bind_eq_some_iff.mp hs'
    simp only [Buffer.events, hpieces, getD_some] at hold ⊢
    exact h.pieces (hbuf _ rfl) hrpc pieces hold hs'

/-- The old buffer and the journal have the events of all the calls. -/
theorem tracks_calls {cs : List (Ambient × Call)} (hrpc : (b.remotePtr b.id).isSome)
    (hbuf : ∀ c ∈ cs, ∀ tensor ∈ c.2.tensor?, tensor.self.buffer = b.id)
    (hold : NoCollision served (b.allEvents cs)) (hs : b.calls served cs = some s) :
    Tracks b (b.allEvents cs) s := by
  have run : ∀ (cs : List (Ambient × Call)) (evs : List Event) (t : BufferState), Tracks b evs t →
      (∀ c ∈ cs, ∀ tensor ∈ c.2.tensor?, tensor.self.buffer = b.id) → NoCollision served (b.allEvents cs) →
      cs.foldlM (fun s c => b.call served c.1 s c.2) t = some s → Tracks b (evs ++ b.allEvents cs) s := by
    intro cs
    induction cs with
    | nil =>
      intro evs t ht _ _ hs
      cases hs
      rwa [Buffer.allEvents, flatMap_nil, append_nil]
    | cons c cs ih =>
      intro evs t ht hbuf hold hs
      rw [foldlM_cons] at hs
      obtain ⟨t', ht', hs⟩ := bind_eq_some_iff.mp hs
      rw [Buffer.allEvents, flatMap_cons] at hold ⊢
      have hc : Tracks b (evs ++ b.events c.1 c.2) t' :=
        ht.call hrpc (hbuf c mem_cons_self) (hold.mono (subset_append_left ..)) ht'
      have hcs := ih _ t' hc (fun c hc => hbuf c (mem_cons_of_mem _ hc))
        (hold.mono (subset_append_right ..)) hs
      rwa [append_assoc] at hcs
  exact run cs [] {} (.start b) hbuf hold hs

/-! ### The replay -/

/-- The worker has the writes that are in the journal by their hash. -/
def StillServed (served : Served) (minor : Nat) (evs : List Event) : Prop :=
  ∀ x, LastWrite evs x → x.hashed = true →
    served (if minor ≥ 8 then x.source else none) (fnvHash x.data) = some x.data

/-- The layers that a replay puts on the new buffer, relative to its start. -/
def replayLayers (size : UInt64) (evs : List Event) : List Mem :=
  ((evs.filterMap Event.clear?).getLast?.map fun value => filled 0 size.toNat value).toList ++
    (evs.filterMap Event.pad?).map (fun r => filled r.1 r.2 0) ++
      (lastWrites evs).map fun x => bytesAt x.2.start x.2.data

variable {minor : Nat}

theorem replaySet_eq {newBase : UInt64} (hx : Stored spill x e)
    (hserved : x.hashed = true → served (if minor ≥ 8 then x.source else none) (fnvHash x.data) = some x.data)
    (m : Mem) :
    Buffer.replaySet served minor newBase spill m e = some (cover m (bytesAt (newBase + x.start) x.data)) := by
  obtain ⟨hstart, hsize, hkind⟩ := hx
  have hplace : e.root.data + newBase + e.offset = newBase + x.start := by
    rw [← hstart]
    grind
  simp only [Buffer.replaySet, hplace]
  split at hkind
  · next hh =>
      obtain ⟨hoff, hhash, hsource⟩ := hkind
      simp only [hoff, hhash, hsource, hserved hh, map_some]
  · obtain ⟨pre, post, rfl, hoff⟩ := hkind
    have htake : ((pre ++ x.data ++ post).drop pre.length).take e.size = x.data := by
      rw [append_assoc, drop_left, hsize, take_left]
    simp only [hoff, htake]
    rw [if_neg (not_not.mpr hsize.symm)]

theorem replaySets_eq {newBase : UInt64} {xs : List (Nat × Write)} (h : Related (Stored spill) xs zs)
    (hserved : ∀ x ∈ xs, x.2.hashed = true →
      served (if minor ≥ 8 then x.2.source else none) (fnvHash x.2.data) = some x.2.data) (m : Mem) :
    zs.foldlM (fun m z => Buffer.replaySet served minor newBase spill m z.2) m =
      some ((xs.map fun x => bytesAt (newBase + x.2.start) x.2.data).foldl cover m) := by
  induction h generalizing m with
  | nil => rfl
  | cons hxz _ ih =>
    rw [foldlM_cons, replaySet_eq hxz.2 (hserved _ mem_cons_self)]
    exact ih (fun x hx => hserved x (mem_cons_of_mem _ hx)) _

/-- The new buffer has the layers of the replay. -/
theorem reprovision_eq (newBase : UInt64) {journal : Option Journal} (hj : Records b evs (journal.getD {}))
    (hd : (journal.getD {}).disabled = false) (hserved : StillServed served minor evs) :
    ∃ new, b.reprovision served minor newBase journal = some new ∧
      ∀ p, new (newBase + p) = overlay (replayLayers b.size evs) p := by
  have hwrites : ∀ x ∈ lastWrites evs, x.2.hashed = true →
      served (if minor ≥ 8 then x.2.source else none) (fnvHash x.2.data) = some x.2.data := by
    rintro ⟨k, x⟩ hx
    exact hserved x (mem_lastWrites.mp hx).2
  -- A buffer without a journal has the layers of an empty one.
  have hsome : b.reprovision served minor newBase journal =
      b.reprovision served minor newBase (some (journal.getD {})) := by
    cases journal with
    | none => rfl
    | some j => rfl
  generalize journal.getD {} = j at hj hd hsome
  rw [hsome]
  simp only [Buffer.reprovision]
  rw [if_neg (by rw [hd]; decide), replaySets_eq hj.sets hwrites]
  refine ⟨_, rfl, ?_⟩
  intro p
  rw [foldl_cover, foldl_cover_map, replayLayers, overlay_append, overlay_append]
  have hsets : overlay ((lastWrites evs).map fun x => bytesAt (newBase + x.2.start) x.2.data) (newBase + p) =
      overlay ((lastWrites evs).map fun x => bytesAt x.2.start x.2.data) p :=
    overlay_map_eq fun x _ => bytesAt_shift newBase x.2.start x.2.data p
  have hpads : overlay (j.initTensors.map fun t => b.padded { t with data := t.data + newBase }) (newBase + p) =
      overlay ((evs.filterMap Event.pad?).map fun r => filled r.1 r.2 0) p := by
    rw [← hj.pads, List.map_map]
    refine overlay_map_eq fun t _ => ?_
    have hplace : t.data + newBase + (b.padding t.type t.ne t.nb).1 =
        newBase + (t.data + (b.padding t.type t.ne t.nb).1) := by grind
    simp only [Buffer.padded, hplace, filled_shift, Function.comp]
  rw [hsets, hpads, ← hj.clears]
  congr 2
  split
  · have hzero : newBase + p - newBase = p - 0 := by grind
    simp only [map_some, toList_some, overlay_singleton, filled, hzero]
  · rfl

theorem overlay_replayLayers_iff {size p : UInt64} {v : UInt8} :
    overlay (replayLayers size evs) p = some v ↔ Replayed size evs p v := by
  have hsets : overlay ((lastWrites evs).map fun x => bytesAt x.2.start x.2.data) p = some v ↔
      ∃ x, LastWrite evs x ∧ bytesAt x.start x.data p = some v ∧
        ∀ y, LastWrite evs y → bytesAt y.start y.data p ≠ none → y.start.toNat ≤ x.start.toNat := by
    rw [overlay_eq_some_iff, last_map_iff (sorted_lastWrites evs) fun x : Write => bytesAt x.start x.data]
    constructor
    · rintro ⟨k, x, hx, hv, hmax⟩
      obtain ⟨rfl, hlast⟩ := mem_lastWrites.mp hx
      exact ⟨x, hlast, hv, fun y hy => hmax _ y (mem_lastWrites.mpr ⟨rfl, hy⟩)⟩
    · rintro ⟨x, hlast, hv, hmax⟩
      refine ⟨_, x, mem_lastWrites.mpr ⟨rfl, hlast⟩, hv, ?_⟩
      intro k y hy hne
      obtain ⟨rfl, hylast⟩ := mem_lastWrites.mp hy
      exact hmax y hylast hne
  have hnone : overlay ((lastWrites evs).map fun x => bytesAt x.2.start x.2.data) p = none ↔
      ∀ x, LastWrite evs x → bytesAt x.start x.data p = none := by
    rw [overlay_eq_none_iff, List.forall_mem_map]
    constructor
    · intro h x hx
      exact h (_, x) (mem_lastWrites.mpr ⟨rfl, hx⟩)
    · rintro h ⟨k, x⟩ hx
      exact h x (mem_lastWrites.mp hx).2
  have hpadsNone : overlay ((evs.filterMap Event.pad?).map fun r => filled r.1 r.2 0) p = none ↔
      ∀ r ∈ evs.filterMap Event.pad?, filled r.1 r.2 0 p = none := by
    rw [overlay_eq_none_iff, List.forall_mem_map]
  -- All paddings are zero, so that it does not matter which one is on top.
  have hpads : overlay ((evs.filterMap Event.pad?).map fun r => filled r.1 r.2 0) p = some v ↔
      ∃ r ∈ evs.filterMap Event.pad?, filled r.1 r.2 0 p = some v := by
    constructor
    · intro h
      obtain ⟨pre, f, post, heq, hf, -⟩ := overlay_eq_some_iff.mp h
      have hmem : f ∈ (evs.filterMap Event.pad?).map fun r => filled r.1 r.2 0 := by
        rw [heq]
        simp
      obtain ⟨r, hr, rfl⟩ := List.mem_map.mp hmem
      exact ⟨r, hr, hf⟩
    · rintro ⟨r, hr, hv⟩
      cases hover : overlay ((evs.filterMap Event.pad?).map fun r => filled r.1 r.2 0) p with
      | none => rw [hpadsNone.mp hover r hr] at hv; cases hv
      | some v' =>
        obtain ⟨pre, f, post, heq, hf, -⟩ := overlay_eq_some_iff.mp hover
        have hmem : f ∈ (evs.filterMap Event.pad?).map fun r => filled r.1 r.2 0 := by
          rw [heq]
          simp
        obtain ⟨r', hr', rfl⟩ := List.mem_map.mp hmem
        have hzero : ∀ {r : UInt64 × Nat} {v : UInt8}, filled r.1 r.2 0 p = some v → v = 0 := by
          intro r v h
          exact (some.inj (ite_none_right_eq_some.mp h).2).symm
        rw [hzero hf, hzero hv]
  have hclear : overlay ((evs.filterMap Event.clear?).getLast?.map fun value => filled 0 size.toNat value).toList p =
      some v ↔ ∃ value ∈ (evs.filterMap Event.clear?).getLast?, filled 0 size.toNat value p = some v := by
    cases (evs.filterMap Event.clear?).getLast? with
    | none => simp
    | some value => simp
  rw [replayLayers, overlay_append, overlay_append, or_eq_some_iff, or_eq_some_iff, hsets, hnone, hpads,
    hpadsNone, hclear]
  rfl

/-! ### Main result -/

/-- After a sequence of calls, a replay to a worker that still has the writes by their hash succeeds, and the new buffer
has what the old one had if and only if, at every byte, the last event of the calls gives the value of the replay. -/
theorem reprovision_restores_iff (b : Buffer) (served served' : Served) (cs : List (Ambient × Call)) (s : BufferState)
    (minor : Nat) (newBase : UInt64) (hrpc : (b.remotePtr b.id).isSome)
    (hbuf : ∀ c ∈ cs, ∀ tensor ∈ c.2.tensor?, tensor.self.buffer = b.id)
    (hrun : b.calls served cs = some s) (hold : NoCollision served (b.allEvents cs))
    (hd : (s.journal.getD {}).disabled = false) (hserved : StillServed served' minor (b.allEvents cs)) :
    ∃ new, b.reprovision served' minor newBase s.journal = some new ∧
      ((∀ p v, s.remote (b.base + p) = some v → new (newBase + p) = some v) ↔
        ∀ p v, Last ((b.allEvents cs).map (Event.layer b.size)) p v → Replayed b.size (b.allEvents cs) p v) := by
  have htracks := tracks_calls hrpc hbuf hold hrun
  have hj : Records b (b.allEvents cs) (s.journal.getD {}) := by
    rcases htracks.journal with h | h
    · rw [hd] at h
      cases h
    · exact h
  obtain ⟨new, hnew, hbytes⟩ := reprovision_eq newBase hj hd hserved
  have hreplayed : ∀ p v, new (newBase + p) = some v ↔ Replayed b.size (b.allEvents cs) p v := by
    intro p v
    rw [hbytes, overlay_replayLayers_iff]
  refine ⟨new, hnew, ?_⟩
  simp only [htracks.remote, hreplayed, overlay_eq_some_iff]

/-- A buffer at 4096 of a worker with the batched placements. -/
def smallBuffer : Buffer where
  id := 1
  base := 4096
  size := 16
  remotePtr _ := some 7
  serverMinor := 10
  isQuantized _ := false
  padding _ _ _ := (0, 0)
  smallBudget := 64

/-- A tensor at its start. -/
def smallTensor : Tensor := .root 5 { buffer := 1, data := 4096 }

/-- The worker has one byte, 7, under its hash. -/
def servesSeven : Served := fun _ hash => if hash = fnvHash [7] then some [7] else none

/-- A weight that is written once. -/
theorem reprovision_restores_iff_weight :
    ∃ s, smallBuffer.calls servesSeven [({ weights := true }, .setTensor smallTensor [7] 2)] = some s ∧
      ∃ new, smallBuffer.reprovision servesSeven 15 8192 s.journal = some new ∧
        ((∀ p v, s.remote (4096 + p) = some v → new (8192 + p) = some v) ↔
          ∀ p v, Last ([Event.set ⟨2, [7], true, none⟩].map (Event.layer 16)) p v →
            Replayed 16 [Event.set ⟨2, [7], true, none⟩] p v) := by
  refine ⟨_, rfl, reprovision_restores_iff smallBuffer servesSeven servesSeven
    [({ weights := true }, .setTensor smallTensor [7] 2)] _ 15 8192 rfl ?_ rfl ?_ rfl ?_⟩
  · intro c hc tensor ht
    rw [mem_singleton.mp hc] at ht
    cases ht
    rfl
  · intro x hx hh src bytes hbytes
    cases mem_singleton.mp hx
    exact (some.inj (hbytes.symm.trans (if_pos rfl)))
  · intro x hx hh
    cases mem_singleton.mp hx.mem
    rfl

/-- A byte that is written and then cleared comes back. -/
theorem reprovision_undoes_clear :
    ∃ s new, smallBuffer.calls servesSeven [({}, .setTensor smallTensor [1] 0), ({}, .clear 0)] = some s ∧
      (s.journal.getD {}).disabled = false ∧
      (∀ x ∈ (smallBuffer.allEvents [({}, .setTensor smallTensor [1] 0), ({}, .clear 0)]).filterMap Event.set?,
        x.hashed = false) ∧
      smallBuffer.reprovision servesSeven 15 8192 s.journal = some new ∧
      s.remote 4096 = some 0 ∧ new 8192 = some 1 := by
  refine ⟨_, _, rfl, rfl, ?_, rfl, by decide +kernel, by decide +kernel⟩
  intro x hx
  cases mem_singleton.mp hx
  rfl

end LlamaCpp.Rpc
