import LlamaCpp.Alloc.ContextTensors
import Mathlib

/-!
# The packing of a context

What `ggml_backend_alloc_ctx_tensors_from_buft_impl` leaves behind: every tensor without data lies
in its own part of a buffer, and every view has the buffer of its source.  The sums and the places
are the same, so a buffer is never too small.

One thing is lost.  A tensor that is larger than the greatest size of a buffer is cut off by the
next one; when nothing behind it has any bytes, the last sum is zero, and what is there is never
looked at.
-/

namespace LlamaCpp.ContextTensors

open List Option

open Checks

variable {B : BufferType} {backend : Backend} {T' : Nat → CtxTensor} {t : Nat} {talloc : Tallocr}
  {pending : List Nat}

/-! ## Paddings -/

theorem le_ggmlPad (x : Nat) {n : Nat} (hn : 0 < n) : x ≤ ggmlPad x n := by
  have hdiv := Nat.div_add_mod (x + n - 1) n
  have hmod := Nat.mod_lt (x + n - 1) hn
  rw [Nat.mul_comm] at hdiv
  unfold ggmlPad
  omega

theorem dvd_ggmlPad (x n : Nat) : n ∣ ggmlPad x n := Nat.dvd_mul_left n _

theorem alignedOffset_zero {base alignment : Nat} (h : alignment ∣ base) : alignedOffset base 0 alignment = 0 := by
  unfold alignedOffset
  rw [Nat.add_zero, Nat.mod_eq_zero_of_dvd h, Nat.sub_zero, Nat.mod_self]

theorem dvd_thisSize (T : Nat → CtxTensor) (t : Nat) : B.alignment ∣ thisSize B T t := by
  unfold thisSize
  split
  · exact dvd_ggmlPad _ _
  · exact Nat.dvd_zero _

theorem thisSize_congr {T : Nat → CtxTensor} (h : T t = T' t) : thisSize B T t = thisSize B T' t := by
  unfold thisSize
  rw [h]

theorem fresh_of_thisSize {T : Nat → CtxTensor} (h : 0 < thisSize B T t) : Fresh (T t) := by
  unfold thisSize at h
  split at h
  · assumption
  · exact absurd h (lt_irrefl 0)

/-- The bytes of some tensors in a row. -/
def total (B : BufferType) (T : Nat → CtxTensor) (ts : List Nat) : Nat := (ts.map (thisSize B T)).sum

@[simp] theorem total_nil (T : Nat → CtxTensor) : total B T [] = 0 := rfl

@[simp] theorem total_cons (T : Nat → CtxTensor) (t : Nat) (ts : List Nat) :
    total B T (t :: ts) = thisSize B T t + total B T ts := rfl

@[simp] theorem total_append (T : Nat → CtxTensor) (ts us : List Nat) :
    total B T (ts ++ us) = total B T ts + total B T us := by
  unfold total
  rw [map_append, sum_append]

theorem total_congr {T : Nat → CtxTensor} {ts : List Nat} (h : ∀ t ∈ ts, T t = T' t) :
    total B T ts = total B T' ts := by
  unfold total
  rw [map_congr_left fun t ht => thisSize_congr (h t ht)]

theorem dvd_total (T : Nat → CtxTensor) (ts : List Nat) : B.alignment ∣ total B T ts := by
  induction ts with
  | nil => exact Nat.dvd_zero _
  | cons t ts ih => exact Nat.dvd_add (dvd_thisSize T t) ih

theorem thisSize_of_total {T : Nat → CtxTensor} {ts : List Nat} (h : total B T ts = 0) (ht : t ∈ ts) :
    thisSize B T t = 0 := by
  unfold total at h
  rw [sum_eq_zero_iff] at h
  exact h _ (List.mem_map_of_mem ht)

/-! ## A piece of the context -/

/-- The tensor is a view that has no buffer yet. -/
def Unbound (x : CtxTensor) : Prop := x.viewSrc ≠ none ∧ x.buffer = none

instance (x : CtxTensor) : Decidable (Unbound x) := inferInstanceAs (Decidable (_ ∧ _))

/-- Tensors in an order in which they can be placed and initialised: what has no data has no buffer,
and the source of a view is there or comes in front of it. -/
def Ready (T : Nat → CtxTensor) (ts : List Nat) : Prop :=
  ∀ pre t post, ts = pre ++ t :: post →
    (Fresh (T t) → (T t).buffer = none) ∧
      ∀ src, (T t).viewSrc = some src → (T t).buffer = none →
        (T src).buffer ≠ none ∧ (T src).data ≠ none ∨ src ∈ pre ∧ Fresh (T src)

/-- Nothing fails by itself. -/
def Backend.Fine (backend : Backend) : Prop :=
  (∀ i size, backend.allocBuffer i size ≠ none) ∧ ∀ t, backend.initTensor t = true

/-- How an allocation may end: never for want of space, and not at all where all is in order. -/
def Excused (quiet : Prop) (e : Stop) : Prop := e ≠ .notEnoughSpace ∧ ¬quiet

theorem excused_assertion {quiet : Prop} (h : ¬quiet) : Excused quiet .assertion := ⟨by decide, h⟩

theorem excused_failed {quiet : Prop} (h : ¬quiet) : Excused quiet .failed := ⟨by decide, h⟩

/-- Nothing has been done to a tensor, it was placed, or it was bound to the buffer of its source. -/
inductive Initialised (B : BufferType) (talloc : Tallocr) (T : Nat → CtxTensor) (t : Nat) :
    Tallocr × (Nat → CtxTensor) → Prop
  | placed (hfresh : Fresh (T t)) (hbuffer : (T t).buffer = none) :
      Initialised B talloc T t ({ talloc with offset := talloc.offset + ggmlPad (B.allocSize t) talloc.alignment },
        Function.update T t { T t with buffer := some (.inr talloc.buffer), data := some (talloc.base + talloc.offset) })
  | bound {src : Nat} (hsrc : (T t).viewSrc = some src) (hbuffer : (T t).buffer = none)
      (hbound : (T src).buffer ≠ none) :
      Initialised B talloc T t (talloc, Function.update T t
        { T t with buffer := (T src).buffer, data := (T src).data.map (· + (T t).viewOffs) })
  | skipped (hfresh : ¬Fresh (T t)) (hbound : ¬Unbound (T t)) : Initialised B talloc T t (talloc, T)

theorem viewInit_ends {quiet : Prop} {T : Nat → CtxTensor} (h : Unbound (T t))
    (hfine : quiet → backend.Fine)
    (hsrc : quiet → ∀ src, (T t).viewSrc = some src → (T src).buffer ≠ none ∧ (T src).data ≠ none) :
    Ends (fun T' => Initialised B talloc T t (talloc, T')) (Excused quiet) (viewInit backend T t) := by
  obtain ⟨hview, hbuffer⟩ := h
  unfold viewInit
  dsimp only
  split
  · next hcase => exact absurd hcase hview
  · next src hcase =>
    split
    · next hok =>
      split
      · exact .bound hcase hbuffer hok.2.1
      · next hinit => exact excused_failed fun hq => hinit ((hfine hq).2 t)
    · next hok =>
      refine excused_assertion fun hq => hok ?_
      obtain ⟨hsrcBuffer, hsrcData⟩ := hsrc hq src hcase
      exact ⟨hbuffer, hsrcBuffer, .inl hsrcData⟩

theorem placeTensor_ends {quiet : Prop} {T : Nat → CtxTensor} (halign : talloc.alignment = B.alignment)
    (hpos : 0 < B.alignment) (hroom : talloc.offset + thisSize B T t ≤ talloc.size)
    (hfine : quiet → backend.Fine) (hfresh : quiet → Fresh (T t) → (T t).buffer = none)
    (hsrc : quiet → Unbound (T t) → ∀ src, (T t).viewSrc = some src → (T src).buffer ≠ none ∧ (T src).data ≠ none) :
    Ends (Initialised B talloc T t) (Excused quiet) (placeTensor B backend (talloc, T) t) := by
  unfold placeTensor
  dsimp only
  split
  · next hdata =>
    split
    · next hview =>
      have hFresh : Fresh (T t) := ⟨hdata, hview⟩
      rw [thisSize, if_pos hFresh, ← halign] at hroom
      unfold tallocrAlloc
      rw [if_neg (Nat.not_lt.mpr hroom)]
      have hsize := le_ggmlPad (B.allocSize t) (halign ▸ hpos)
      have halloc : Ends (fun T' => T' = Function.update T t
            { T t with buffer := some (.inr talloc.buffer), data := some (talloc.base + talloc.offset) } ∧
              (T t).buffer = none) (Excused quiet)
          (tensorAlloc B backend talloc T t (talloc.base + talloc.offset)) := by
        unfold tensorAlloc
        dsimp only
        split
        · next hok =>
          split
          · exact ⟨rfl, hok.1⟩
          · next hinit => exact excused_failed fun hq => hinit ((hfine hq).2 t)
        · next hok =>
          exact excused_assertion fun hq =>
            hok ⟨hfresh hq hFresh, hdata, hview, Nat.le_add_right _ _, by omega⟩
      refine halloc.bind fun T' hT' => ?_
      obtain ⟨rfl, hbuffer⟩ := hT'
      exact .placed hFresh hbuffer
    · next hview =>
      split
      · next hbuffer =>
        exact (viewInit_ends ⟨hview, hbuffer⟩ hfine fun hq => hsrc hq ⟨hview, hbuffer⟩).bind fun T' hT' => hT'
      · next hbuffer => exact .skipped (fun h => hview h.2) fun h => hbuffer h.2
  · next hdata =>
    split
    · next hview => exact (viewInit_ends hview hfine fun hq => hsrc hq hview).bind fun T' hT' => hT'
    · next hview => exact .skipped (fun h => hdata h.1) hview

/-- Some tensors in a row have been dealt with: those without data are one behind the other in the
`i`-th buffer, and the views have the buffers of their sources. -/
structure Filled (B : BufferType) (i start : Nat) (ts : List Nat) (T T' : Nat → CtxTensor) : Prop where
  kept : ∀ t, t ∉ ts ∨ (T t).buffer ≠ none → T' t = T t
  placed : ∀ pre t post, ts = pre ++ t :: post → Fresh (T t) →
    (T' t).buffer = some (.inr i) ∧ (T' t).data = some (start + total B T pre)
  bound : ∀ t ∈ ts, Unbound (T t) → ∀ src, (T t).viewSrc = some src →
    (T' src).buffer ≠ none ∧ (T' t).buffer = (T' src).buffer ∧
      (T' t).data = (T' src).data.map (· + (T t).viewOffs)

theorem Filled.cons {i start t : Nat} {ts : List Nat} {T T₁ T' : Nat → CtxTensor} (ht : t ∉ ts)
    (hother : ∀ u, u ≠ t → T₁ u = T u) (hkept : (T t).buffer ≠ none → T₁ t = T t)
    (hplaced : Fresh (T t) → (T₁ t).buffer = some (.inr i) ∧ (T₁ t).data = some start)
    (hbound : Unbound (T t) → ∀ src, (T t).viewSrc = some src → (T src).buffer ≠ none ∧
      (T₁ t).buffer = (T src).buffer ∧ (T₁ t).data = (T src).data.map (· + (T t).viewOffs))
    (h : Filled B i (start + thisSize B T t) ts T₁ T') : Filled B i start (t :: ts) T T' := by
  have hne : ∀ {u}, u ∈ ts → u ≠ t := fun hu heq => ht (heq ▸ hu)
  have hself : T' t = T₁ t := h.kept t (.inl ht)
  constructor
  · intro u hu
    by_cases heq : u = t
    · subst heq
      rcases hu with hu | hu
      · exact absurd mem_cons_self hu
      · rw [hself, hkept hu]
    · rw [h.kept u, hother u heq]
      rw [hother u heq]
      exact hu.imp_left fun hu hmem => hu (mem_cons_of_mem t hmem)
  · intro pre u post hsplit hfresh
    cases pre with
    | nil =>
      obtain ⟨rfl, rfl⟩ := List.cons.inj hsplit
      rw [hself, total_nil, Nat.add_zero]
      exact hplaced hfresh
    | cons v pre =>
      obtain ⟨rfl, rfl⟩ := List.cons.inj hsplit
      have hu : u ≠ t := hne (mem_append_right pre mem_cons_self)
      have hpre : total B T₁ pre = total B T pre :=
        total_congr fun w hw => hother w (hne (mem_append_left _ hw))
      have hnext := h.placed pre u post rfl ((hother u hu).symm ▸ hfresh)
      rwa [hpre, Nat.add_assoc] at hnext
  · intro u hu hunbound src hsrc
    rcases mem_cons.mp hu with rfl | hu
    · obtain ⟨hbuffer, hsame, hdata⟩ := hbound hunbound src hsrc
      have hsrcNe : src ≠ u := fun heq => hbuffer (heq ▸ hunbound.2)
      have hkeep : T' src = T src := by
        rw [h.kept src, hother src hsrcNe]
        rw [hother src hsrcNe]
        exact .inr hbuffer
      rw [hself, hkeep]
      exact ⟨hbuffer, hsame, hdata⟩
    · have hu' := hother u (hne hu)
      have hnext := h.bound u hu
      rw [hu'] at hnext
      exact hnext hunbound src hsrc

/-- What can be placed stays so behind a tensor that was dealt with. -/
theorem Ready.tail {ts : List Nat} {T T₁ : Nat → CtxTensor} (h : Ready T (t :: ts)) (ht : t ∉ ts)
    (hother : ∀ u, u ≠ t → T₁ u = T u) (hkept : (T t).buffer ≠ none → T₁ t = T t)
    (hplaced : Fresh (T t) → (T₁ t).buffer ≠ none ∧ (T₁ t).data ≠ none) : Ready T₁ ts := by
  intro pre u post hsplit
  have hu : u ≠ t := fun heq => ht (heq ▸ hsplit ▸ mem_append_right pre mem_cons_self)
  obtain ⟨hfresh, hsrc⟩ := h (t :: pre) u post (by rw [hsplit, cons_append])
  rw [hother u hu]
  refine ⟨hfresh, fun src hview hbuffer => ?_⟩
  by_cases heq : src = t
  · subst heq
    rcases hsrc src hview hbuffer with ⟨hsrcBuffer, hdata⟩ | ⟨-, hsrcFresh⟩
    · rw [hkept hsrcBuffer]
      exact .inl ⟨hsrcBuffer, hdata⟩
    · exact .inl (hplaced hsrcFresh)
  · rw [hother src heq]
    exact (hsrc src hview hbuffer).imp_right fun hmem =>
      ⟨(mem_cons.mp hmem.1).resolve_left heq, hmem.2⟩

/-- The loop of `alloc_tensor_range`. -/
theorem placeTensors_ends {quiet : Prop} (hpos : 0 < B.alignment) (hfine : quiet → backend.Fine)
    {ts : List Nat} {T : Nat → CtxTensor} (hnodup : ts.Nodup) (halign : talloc.alignment = B.alignment)
    (hroom : talloc.offset + total B T ts ≤ talloc.size) (hready : quiet → Ready T ts) :
    Ends (fun s => Filled B talloc.buffer (talloc.base + talloc.offset) ts T s.2) (Excused quiet)
      (ts.foldlM (placeTensor B backend) (talloc, T)) := by
  induction ts generalizing T talloc with
  | nil =>
    refine Filled.mk (fun _ _ => rfl) (fun pre t post h => ?_) fun t h => absurd h not_mem_nil
    exact absurd h.symm (append_ne_nil_of_right_ne_nil pre (cons_ne_nil t post))
  | cons t ts ih =>
    obtain ⟨ht, hnodup⟩ := nodup_cons.mp hnodup
    rw [total_cons] at hroom
    have hsize : ∀ {T₁ : Nat → CtxTensor}, (∀ u, u ≠ t → T₁ u = T u) → total B T₁ ts = total B T ts :=
      fun hother => total_congr fun u hu => hother u fun heq => ht (heq ▸ hu)
    rw [foldlM_cons]
    refine (placeTensor_ends halign hpos (by omega) hfine (fun hq hfresh => ?_) fun hq hview => ?_).bind
      fun s hs => ?_
    · exact (hready hq [] t ts rfl).1 hfresh
    · exact fun src hsrc => ((hready hq [] t ts rfl).2 src hsrc hview.2).resolve_right fun h => by cases h.1
    · cases hs with
      | placed hfresh hbuffer =>
        have hother : ∀ u, u ≠ t → Function.update T t { T t with
            buffer := some (.inr talloc.buffer), data := some (talloc.base + talloc.offset) } u = T u :=
          fun u hu => Function.update_of_ne hu _ _
        have hthis : thisSize B T t = ggmlPad (B.allocSize t) talloc.alignment := by
          rw [thisSize, if_pos hfresh, halign]
        have hkept : (T t).buffer ≠ none → Function.update T t { T t with
            buffer := some (.inr talloc.buffer), data := some (talloc.base + talloc.offset) } t = T t :=
          fun h => absurd hbuffer h
        have halign' : ({ talloc with offset := talloc.offset + ggmlPad (B.allocSize t) talloc.alignment } :
          Tallocr).alignment = B.alignment := halign
        refine (ih (T := Function.update T t _) hnodup halign' ?_ fun hq => (hready hq).tail ht hother hkept
          fun _ => by simp).mono fun s' hs' => ?_
        · rw [hsize hother]
          dsimp only
          omega
        · refine .cons ht hother hkept (fun _ => by simp) (fun hview => absurd hfresh.2 hview.1) ?_
          rw [hthis, Nat.add_assoc]
          exact hs'
      | @bound src hsrc hbuffer hbound =>
        have hother : ∀ u, u ≠ t → Function.update T t { T t with
            buffer := (T src).buffer, data := (T src).data.map (· + (T t).viewOffs) } u = T u :=
          fun u hu => Function.update_of_ne hu _ _
        have hfresh : ¬Fresh (T t) := fun h => absurd (h.2.symm.trans hsrc) (by simp)
        have hthis : thisSize B T t = 0 := if_neg hfresh
        have hkept : (T t).buffer ≠ none → Function.update T t { T t with
            buffer := (T src).buffer, data := (T src).data.map (· + (T t).viewOffs) } t = T t :=
          fun h => absurd hbuffer h
        refine (ih (T := Function.update T t _) hnodup halign ?_ fun hq => (hready hq).tail ht hother hkept
          fun h => absurd h hfresh).mono fun s' hs' => ?_
        · rw [hsize hother]
          omega
        · refine .cons ht hother hkept (fun h => absurd h hfresh) (fun _ src' hsrc' => ?_) ?_
          · obtain rfl := some.inj (hsrc.symm.trans hsrc')
            exact ⟨hbound, by simp, by simp⟩
          · rw [hthis, Nat.add_zero]
            exact hs'
      | skipped hfresh hview =>
        have hthis : thisSize B T t = 0 := if_neg hfresh
        refine (ih hnodup halign (by omega) fun hq => (hready hq).tail ht (fun _ _ => rfl) (fun _ => rfl)
          fun h => absurd h hfresh).mono fun s' hs' => ?_
        refine .cons ht (fun _ _ => rfl) (fun _ => rfl) (fun h => absurd h hfresh) (fun h => absurd h hview) ?_
        rw [hthis, Nat.add_zero]
        exact hs'

/-! ## The buffers of the context -/

/-- What is to be had in the end, for the tensors `T` as they were and `T'` as they are. -/
structure Packed (B : BufferType) (T T' : Nat → CtxTensor) (ts : List Nat) (buffers : List BackendBuffer) :
    Prop where
  /-- A tensor without data lies in a buffer. -/
  placed : ∀ t ∈ ts, Fresh (T t) → ∃ i b addr, (T' t).buffer = some (.inr i) ∧ buffers[i]? = some b ∧
    (T' t).data = some addr ∧ B.alignment ∣ addr ∧ b.base ≤ addr ∧
      addr + ggmlPad (B.allocSize t) B.alignment ≤ b.base + b.size
  /-- No two of them lie in the same place. -/
  apart : ∀ t ∈ ts, ∀ u ∈ ts, Fresh (T t) → Fresh (T u) → t ≠ u → (T' t).buffer = (T' u).buffer →
    ∀ a b, (T' t).data = some a → (T' u).data = some b →
      a + ggmlPad (B.allocSize t) B.alignment ≤ b ∨ b + ggmlPad (B.allocSize u) B.alignment ≤ a
  /-- A view without a buffer has that of its source. -/
  bound : ∀ t ∈ ts, Unbound (T t) → ∀ src, (T t).viewSrc = some src →
    (T' src).buffer ≠ none ∧ (T' t).buffer = (T' src).buffer ∧
      (T' t).data = (T' src).data.map (· + (T t).viewOffs)
  /-- A buffer that is too large holds a single tensor. -/
  sizes : ∀ i b, buffers[i]? = some b →
    b.size ≤ B.maxSize ∨ ∃! t, t ∈ ts ∧ 0 < thisSize B T t ∧ (T' t).buffer = some (.inr i)

/-- The last tensor of a piece is alone in being of any size. -/
def Alone (B : BufferType) (T : Nat → CtxTensor) (ts : List Nat) : Prop :=
  ∃ pre x, ts = pre ++ [x] ∧ total B T pre = 0

theorem packed_nil (T T' : Nat → CtxTensor) : Packed B T T' [] [] := by
  constructor
  · exact fun t ht => absurd ht not_mem_nil
  · exact fun t ht => absurd ht not_mem_nil
  · exact fun t ht => absurd ht not_mem_nil
  · exact fun i b h => absurd h (by simp)

theorem thisSize_fresh {T : Nat → CtxTensor} (h : Fresh (T t)) :
    thisSize B T t = ggmlPad (B.allocSize t) B.alignment := if_pos h

theorem Filled.apart {i start u : Nat} {ts pre post : List Nat} {T : Nat → CtxTensor}
    (h : Filled B i start ts T T') (ht : Fresh (T t)) (hu : Fresh (T u)) (hsplit : ts = pre ++ u :: post)
    (hmem : t ∈ pre) {a b : Nat} (ha : (T' t).data = some a) (hb : (T' u).data = some b) :
    a + ggmlPad (B.allocSize t) B.alignment ≤ b := by
  obtain ⟨first, second, rfl⟩ := append_of_mem hmem
  have hplace := (h.placed first t (second ++ u :: post) (by simp [hsplit]) ht).2
  have hplace' := (h.placed _ u post hsplit hu).2
  obtain rfl := some.inj (ha.symm.trans hplace)
  obtain rfl := some.inj (hb.symm.trans hplace')
  rw [total_append, total_cons, thisSize_fresh ht]
  omega

theorem Packed.extend {T T₁ : Nat → CtxTensor} {done : List Nat} {buffers : List BackendBuffer}
    {b : BackendBuffer} (h : Packed B T T₁ done buffers) (hsame : ∀ t ∈ pending, T₁ t = T t)
    (hfilled : Filled B buffers.length b.base pending T₁ T') (hapart : done.Disjoint pending)
    (halign : B.alignment ∣ b.base) (hsize : b.size = total B T pending)
    (halone : B.maxSize < b.size → Alone B T pending) :
    Packed B T T' (done ++ pending) (buffers ++ [b]) := by
  have hdone : ∀ t ∈ done, T' t = T₁ t := fun t ht => hfilled.kept t (.inl fun hmem => hapart ht hmem)
  have hold : ∀ t ∈ done, Fresh (T t) → ∃ i < buffers.length, (T' t).buffer = some (.inr i) := by
    intro t ht hfresh
    obtain ⟨i, b', -, hbuffer, hget, -⟩ := h.placed t ht hfresh
    exact ⟨i, (List.getElem?_eq_some_iff.mp hget).1, by rw [hdone t ht, hbuffer]⟩
  have hnew : ∀ t ∈ pending, Fresh (T t) → (T' t).buffer = some (.inr buffers.length) := by
    intro t ht hfresh
    obtain ⟨pre, post, hsplit⟩ := append_of_mem ht
    exact (hfilled.placed pre t post hsplit (by rwa [hsame t ht])).1
  have hmixed : ∀ t ∈ done, ∀ u ∈ pending, Fresh (T t) → Fresh (T u) → (T' t).buffer ≠ (T' u).buffer := by
    intro t ht u hu hfresh hfresh' heq
    obtain ⟨i, hi, hbuffer⟩ := hold t ht hfresh
    rw [hbuffer, hnew u hu hfresh'] at heq
    exact hi.ne (Sum.inr.inj (some.inj heq))
  constructor
  · intro t ht hfresh
    rcases List.mem_append.mp ht with ht | ht
    · obtain ⟨i, b', addr, hbuffer, hget, hdata, hplace⟩ := h.placed t ht hfresh
      refine ⟨i, b', addr, ?_, ?_, ?_, hplace⟩
      · rw [hdone t ht, hbuffer]
      · rw [getElem?_append_left (List.getElem?_eq_some_iff.mp hget).1, hget]
      · rw [hdone t ht, hdata]
    · obtain ⟨pre, post, hsplit⟩ := append_of_mem ht
      obtain ⟨hbuffer, hdata⟩ := hfilled.placed pre t post hsplit (by rwa [hsame t ht])
      have hpre : total B T₁ pre = total B T pre :=
        total_congr fun u hu => hsame u (hsplit ▸ mem_append_left _ hu)
      have hless : total B T pre + ggmlPad (B.allocSize t) B.alignment ≤ b.size := by
        rw [hsize, hsplit, total_append, total_cons, thisSize_fresh hfresh]
        omega
      refine ⟨buffers.length, b, _, hbuffer, by simp, hdata, ?_, Nat.le_add_right _ _, ?_⟩
      · exact Nat.dvd_add halign (dvd_total T₁ pre)
      · omega
  · intro t ht u hu hfresh hfresh' hne hbuffer a b' ha hb
    rcases List.mem_append.mp ht with ht | ht
    · rcases List.mem_append.mp hu with hu | hu
      · rw [hdone t ht] at hbuffer ha
        rw [hdone u hu] at hbuffer hb
        exact h.apart t ht u hu hfresh hfresh' hne hbuffer a b' ha hb
      · exact absurd hbuffer (hmixed t ht u hu hfresh hfresh')
    · rcases List.mem_append.mp hu with hu | hu
      · exact absurd hbuffer.symm (hmixed u hu t ht hfresh' hfresh)
      · have hpresent : Fresh (T₁ t) := by rwa [hsame t ht]
        have hpresent' : Fresh (T₁ u) := by rwa [hsame u hu]
        obtain ⟨pre, post, hsplit⟩ := append_of_mem hu
        have hwhere : t ∈ pre ∨ t ∈ post := by
          rw [hsplit] at ht
          rcases List.mem_append.mp ht with hmem | hmem
          · exact .inl hmem
          · exact .inr ((mem_cons.mp hmem).resolve_left hne)
        rcases hwhere with hmem | hmem
        · exact .inl (hfilled.apart hpresent hpresent' hsplit hmem ha hb)
        · obtain ⟨first, second, rfl⟩ := append_of_mem hmem
          have hbehind : pending = (pre ++ u :: first) ++ t :: second := by simp [hsplit]
          exact .inr (hfilled.apart hpresent' hpresent hbehind
            (mem_append_right pre mem_cons_self) hb ha)
  · intro t ht hview src hsrc
    rcases List.mem_append.mp ht with ht | ht
    · obtain ⟨hbuffer, hsame', hdata⟩ := h.bound t ht hview src hsrc
      rw [hdone t ht, hfilled.kept src (.inr hbuffer)]
      exact ⟨hbuffer, hsame', hdata⟩
    · have hbound := hfilled.bound t ht
      rw [hsame t ht] at hbound
      exact hbound hview src hsrc
  · intro i b' hget
    by_cases hi : i < buffers.length
    · rw [getElem?_append_left hi] at hget
      refine (h.sizes i b' hget).imp_right ?_
      rintro ⟨t, ⟨ht, hpos, hbuffer⟩, hunique⟩
      refine ⟨t, ⟨mem_append_left _ ht, hpos, by rw [hdone t ht, hbuffer]⟩, ?_⟩
      rintro u ⟨hu, hupos, hubuffer⟩
      rcases List.mem_append.mp hu with hu | hu
      · exact hunique u ⟨hu, hupos, by rw [← hdone u hu, hubuffer]⟩
      · rw [hnew u hu (fresh_of_thisSize hupos)] at hubuffer
        exact absurd (Sum.inr.inj (some.inj hubuffer)) hi.ne'
    · obtain ⟨rfl, rfl⟩ : i = buffers.length ∧ b' = b := by
        rw [getElem?_append_right (Nat.not_lt.mp hi)] at hget
        obtain ⟨hlt, heq⟩ := List.getElem?_eq_some_iff.mp hget
        rw [length_singleton] at hlt
        exact ⟨by omega, by rw [← heq]; simp⟩
      rcases Nat.lt_or_ge B.maxSize b'.size with hlarge | hfits
      · obtain ⟨pre, x, hsplit, hzero⟩ := halone hlarge
        have hx : x ∈ pending := hsplit ▸ mem_append_right pre mem_cons_self
        have hpos : 0 < thisSize B T x := by
          rw [hsize, hsplit, total_append, hzero, total_cons, total_nil] at hlarge
          omega
        refine .inr ⟨x, ⟨mem_append_right _ hx, hpos, hnew x hx (fresh_of_thisSize hpos)⟩, ?_⟩
        rintro u ⟨hu, hupos, hubuffer⟩
        rcases List.mem_append.mp hu with hu | hu
        · obtain ⟨j, hj, hbuffer⟩ := hold u hu (fresh_of_thisSize hupos)
          rw [hbuffer] at hubuffer
          exact absurd (Sum.inr.inj (some.inj hubuffer)) hj.ne
        · rw [hsplit] at hu
          rcases List.mem_append.mp hu with hu | hu
          · exact absurd (thisSize_of_total hzero hu) hupos.ne'
          · exact mem_singleton.mp hu
      · exact .inl hfits

/-! ## The run over the context -/

def Backend.Aligned (backend : Backend) (B : BufferType) : Prop :=
  ∀ i size base, backend.allocBuffer i size = some base → B.alignment ∣ base

/-- The tensors `done` are in the buffers, `pending` ones have been counted, and `ts` are left. -/
structure Inv (B : BufferType) (quiet : Prop) (T : Nat → CtxTensor) (ctx done ts : List Nat) (s : Progress) :
    Prop where
  split : done ++ s.pending ++ ts = ctx
  kept : ∀ t, t ∉ done → s.tensors t = T t
  counted : s.curBufSize = total B T s.pending
  alone : B.maxSize < s.curBufSize → Alone B T s.pending
  packed : Packed B T s.tensors done s.buffers
  empty : s.buffers = [] → done = []
  /-- What is forgotten is behind a tensor that is too large. -/
  large : s.curBufSize = 0 → s.buffers ≠ [] → ∃ pre x, done = pre ++ [x] ∧ B.maxSize < thisSize B T x
  ready : quiet → Ready s.tensors (s.pending ++ ts)

theorem Ready.filled {i start : Nat} {ts : List Nat} {T : Nat → CtxTensor} (h : Ready T (pending ++ ts))
    (hnodup : (pending ++ ts).Nodup) (hdata : Filled B i start pending T T') : Ready T' ts := by
  have hapart := disjoint_of_nodup_append hnodup
  intro pre t post hsplit
  have ht : t ∉ pending := fun hmem => hapart hmem (hsplit ▸ mem_append_right pre mem_cons_self)
  obtain ⟨hfresh, hsrc⟩ := h (pending ++ pre) t post (by rw [hsplit, append_assoc])
  rw [hdata.kept t (.inl ht)]
  refine ⟨hfresh, fun src hview hbuffer => ?_⟩
  rcases hsrc src hview hbuffer with hthere | ⟨hmem, hsrcFresh⟩
  · rw [hdata.kept src (.inr hthere.1)]
    exact .inl hthere
  · rcases List.mem_append.mp hmem with hmem | hmem
    · obtain ⟨first, second, hpending⟩ := append_of_mem hmem
      obtain ⟨hsrcBuffer, hsrcData⟩ := hdata.placed first src second hpending hsrcFresh
      rw [hsrcBuffer, hsrcData]
      exact .inl ⟨some_ne_none _, some_ne_none _⟩
    · have hsrcNot : src ∉ pending := fun hin => hapart hin (hsplit ▸ mem_append_left _ hmem)
      rw [hdata.kept src (.inl hsrcNot)]
      exact .inr ⟨hmem, hsrcFresh⟩

variable {quiet : Prop} {T : Nat → CtxTensor} {ctx done ts : List Nat} {s : Progress}

/-- A piece goes into a buffer of its own. -/
theorem allocTensorRange_ends (hpos : 0 < B.alignment) (hbase : backend.Aligned B) (hfine : quiet → backend.Fine)
    (hctx : ctx.Nodup) (h : Inv B quiet T ctx done ts s) :
    Ends (fun s' => Packed B T s'.tensors (done ++ s.pending) s'.buffers ∧ s'.buffers ≠ [] ∧
        (∀ t, t ∉ done ++ s.pending → s'.tensors t = T t) ∧ (quiet → Ready s'.tensors ts))
      (Excused quiet) (allocTensorRange B backend s) := by
  have hall : (done ++ s.pending ++ ts).Nodup := h.split ▸ hctx
  have hnodup := (nodup_append.mp hall).1
  have hapart := disjoint_of_nodup_append hnodup
  have hpending : s.pending.Nodup := (nodup_append.mp hnodup).2.1
  have hsame : ∀ t ∈ s.pending, s.tensors t = T t := fun t ht => h.kept t fun hmem => hapart hmem ht
  unfold allocTensorRange
  split
  · next hnone => exact excused_failed fun hq => (hfine hq).1 _ _ hnone
  · next base hsome =>
    have halign := hbase _ _ _ hsome
    have htotal : total B s.tensors s.pending = s.curBufSize := by
      rw [total_congr hsame, ← h.counted]
    have hstart : (Tallocr.new s.buffers.length ⟨base, s.curBufSize⟩ B.alignment).offset = 0 :=
      alignedOffset_zero halign
    refine (placeTensors_ends (T := s.tensors) hpos hfine hpending
      (show (Tallocr.new s.buffers.length ⟨base, s.curBufSize⟩ B.alignment).alignment = _ from rfl) ?_ fun hq =>
        ?_).bind fun r hr => ?_
    · rw [hstart, Nat.zero_add, htotal]
      exact le_rfl
    · intro pre t post hsplit
      exact (h.ready hq) pre t (post ++ ts) (by rw [hsplit, append_assoc, cons_append])
    · rw [hstart, Nat.add_zero] at hr
      have hr : Filled B s.buffers.length base s.pending s.tensors r.2 := hr
      refine ⟨?_, by simp, fun t ht => ?_, fun hq => ?_⟩
      · exact h.packed.extend hsame hr hapart halign h.counted h.alone
      · rw [List.mem_append, not_or] at ht
        show r.2 t = T t
        rw [hr.kept t (.inl ht.2), h.kept t ht.1]
      · refine (h.ready hq).filled ?_ hr
        exact (nodup_append.mp (append_assoc done _ _ ▸ hall)).2.1

/-- The body of the loop over the tensors. -/
theorem sizeTensor_ends (hpos : 0 < B.alignment) (hbase : backend.Aligned B)
    (hfine : quiet → backend.Fine) (hctx : ctx.Nodup) (h : Inv B quiet T ctx done (t :: ts) s) :
    Ends (fun s' => ∃ done', Inv B quiet T ctx done' ts s') (Excused quiet) (sizeTensor B backend false s t) := by
  have hall : (done ++ s.pending ++ t :: ts).Nodup := h.split ▸ hctx
  have ht : t ∉ done ++ s.pending := fun hmem =>
    disjoint_of_nodup_append hall hmem mem_cons_self
  have hthis : thisSize B s.tensors t = thisSize B T t :=
    thisSize_congr (h.kept t fun hmem => ht (mem_append_left _ hmem))
  unfold sizeTensor
  dsimp only
  rw [hthis]
  split
  · next hcut =>
    obtain ⟨hcur, hover⟩ := hcut
    rw [if_neg Bool.false_ne_true]
    refine (allocTensorRange_ends hpos hbase hfine hctx h).bind fun s' hs' => ?_
    obtain ⟨hpacked, hbuffers, hkept, hready⟩ := hs'
    refine ⟨done ++ s.pending, ?_, hkept, (Nat.add_zero _).symm, fun _ => ⟨[], t, rfl, rfl⟩, hpacked,
      fun hnone => absurd hnone hbuffers, fun hzero _ => ?_, hready⟩
    · rw [← h.split]
      simp
    · -- the piece is larger than a buffer can be, so its last tensor is
      have hzero : thisSize B T t = 0 := hzero
      rw [hzero, Nat.add_zero] at hover
      obtain ⟨pre, x, hsplit, hpre⟩ := h.alone hover
      refine ⟨done ++ pre, x, by rw [hsplit, append_assoc], ?_⟩
      rw [h.counted, hsplit, total_append, hpre, total_cons, total_nil] at hover
      omega
  · next hfits =>
    rw [not_and_or, Nat.not_lt, Nat.not_lt] at hfits
    refine ⟨done, ?_, h.kept, ?_, fun hover => ⟨s.pending, t, rfl, ?_⟩, h.packed, h.empty, fun hzero => ?_,
      fun hq => ?_⟩
    · rw [← h.split]
      simp
    · show s.curBufSize + _ = _
      rw [h.counted, total_append, total_cons, total_nil, Nat.add_zero]
    · have hover : B.maxSize < s.curBufSize + thisSize B T t := hover
      rw [← h.counted]
      omega
    · have hzero : s.curBufSize + thisSize B T t = 0 := hzero
      exact h.large (by omega)
    · show Ready s.tensors (s.pending ++ [t] ++ ts)
      rw [append_assoc]
      exact h.ready hq

/-- A tensor that is larger than a buffer can be, with nothing of any size behind it, but something
that is to be placed or initialised. -/
def Forgotten (B : BufferType) (T : Nat → CtxTensor) (ctx : List Nat) : Prop :=
  ∃ pre x post, ctx = pre ++ x :: post ∧ B.maxSize < thisSize B T x ∧ (∀ y ∈ post, thisSize B T y = 0) ∧
    ∃ t ∈ post, Fresh (T t) ∨ Unbound (T t)

/-- The tensors of a context: none is there twice, and they can be placed in their order. -/
structure ContextOk (T : Nat → CtxTensor) (ctx : List Nat) : Prop where
  nodup : ctx.Nodup
  ready : Ready T ctx

/-- Whatever the backend answers, there is space enough, and what is returned is in order. -/
def PacksAll (B : BufferType) (T : Nat → CtxTensor) (ctx : List Nat) : Prop :=
  ∀ backend : Backend, backend.Aligned B →
    allocCtxTensors B backend ctx T false ≠ .error .notEnoughSpace ∧
      ∀ buffers s, allocCtxTensors B backend ctx T false = .ok (some buffers, s) →
        Packed B T s.tensors ctx buffers

/-- The run up to what is left. -/
theorem sizes_ends (hpos : 0 < B.alignment) (hbase : backend.Aligned B) (hfine : quiet → backend.Fine)
    (hctx : ctx.Nodup) (hready : quiet → Ready T ctx) :
    Ends (fun s => ∃ done, Inv B quiet T ctx done [] s) (Excused quiet)
      (ctx.foldlM (sizeTensor B backend false) { tensors := T }) := by
  refine ends_foldlM (I := fun ts s => ∃ done, Inv B quiet T ctx done ts s) (fun t ts s hs => ?_) ⟨[], ?_⟩
  · obtain ⟨done, hs⟩ := hs
    exact sizeTensor_ends hpos hbase hfine hctx hs
  · exact {
      split := rfl
      kept := fun _ _ => rfl
      counted := rfl
      alone := fun h => absurd h (Nat.not_lt_zero _)
      packed := packed_nil T T
      empty := fun _ => rfl
      large := fun _ h => absurd rfl h
      ready := hready }

/-- How the run ends: with everything in the buffers, or with some tensors of no size left over. -/
theorem allocCtxTensors_ends (hpos : 0 < B.alignment) (hbase : backend.Aligned B) (hfine : quiet → backend.Fine)
    (hctx : ctx.Nodup) (hready : quiet → Ready T ctx) :
    Ends (fun r => r.1 = (if r.2.buffers = [] then none else some r.2.buffers) ∧
        (Packed B T r.2.tensors ctx r.2.buffers ∧ (∃ done s, Inv B quiet T ctx done [] s ∧ 0 < s.curBufSize) ∨
          ∃ done, Inv B quiet T ctx done [] r.2 ∧ r.2.curBufSize = 0))
      (Excused quiet) (allocCtxTensors B backend ctx T false) := by
  unfold allocCtxTensors
  refine (sizes_ends hpos hbase hfine hctx hready).bind fun s hs => ?_
  obtain ⟨done, hs⟩ := hs
  have hrest : Ends (fun s' => Packed B T s'.tensors ctx s'.buffers ∧
      (∃ done s, Inv B quiet T ctx done [] s ∧ 0 < s.curBufSize) ∨ ∃ done, Inv B quiet T ctx done [] s' ∧ s'.curBufSize = 0) (Excused quiet)
      (allocRemaining B backend false s) := by
    unfold allocRemaining
    split
    · next hcur =>
      rw [if_neg Bool.false_ne_true]
      have hs' : Inv B quiet T ctx done [] { s with nbytesTotal := s.nbytesTotal + s.curBufSize } :=
        ⟨hs.split, hs.kept, hs.counted, hs.alone, hs.packed, hs.empty, hs.large, hs.ready⟩
      refine (allocTensorRange_ends hpos hbase hfine hctx hs').mono fun s' hs' => .inl ⟨?_, done, s, hs, hcur⟩
      have hsplit := hs.split
      rw [append_nil] at hsplit
      exact hsplit ▸ hs'.1
    · next hzero => exact .inr ⟨done, hs, Nat.eq_zero_of_not_pos hzero⟩
  refine hrest.bind fun s' hs' => ⟨?_, hs'⟩
  simp

/-- What is behind the last element of a kind. -/
theorem eq_behind_last {P : Nat → Prop} {pre post pre' post' : List Nat} {x x' : Nat}
    (h : pre ++ x :: post = pre' ++ x' :: post') (hx : P x) (hx' : P x') (hpost : ∀ y ∈ post, ¬P y)
    (hpost' : ∀ y ∈ post', ¬P y) : post = post' := by
  rcases append_eq_append_iff.mp h with ⟨as, -, hrest⟩ | ⟨as, -, hrest⟩
  · cases as with
    | nil => exact (List.cons.inj hrest).2
    | cons a as =>
      obtain ⟨-, rfl⟩ := List.cons.inj hrest
      exact absurd hx' (hpost x' (mem_append_right as mem_cons_self))
  · cases as with
    | nil => exact (List.cons.inj hrest).2.symm
    | cons a as =>
      obtain ⟨-, rfl⟩ := List.cons.inj hrest
      exact absurd hx (hpost' x (mem_append_right as mem_cons_self))

theorem Packed.idle {buffers : List BackendBuffer} (h : Packed B T T' done buffers)
    (hidle : ∀ t ∈ pending, ¬Fresh (T t) ∧ ¬Unbound (T t)) :
    Packed B T T' (done ++ pending) buffers := by
  have hfresh : ∀ {t}, t ∈ done ++ pending → Fresh (T t) → t ∈ done := fun ht hfresh =>
    (List.mem_append.mp ht).resolve_right fun hmem => (hidle _ hmem).1 hfresh
  constructor
  · exact fun t ht hf => h.placed t (hfresh ht hf) hf
  · exact fun t ht u hu hf hf' => h.apart t (hfresh ht hf) u (hfresh hu hf') hf hf'
  · exact fun t ht hview =>
      h.bound t ((List.mem_append.mp ht).resolve_right fun hmem => (hidle t hmem).2 hview) hview
  · intro i b hget
    refine (h.sizes i b hget).imp_right ?_
    rintro ⟨t, ⟨ht, hpos, hbuffer⟩, hunique⟩
    exact ⟨t, ⟨mem_append_left _ ht, hpos, hbuffer⟩, fun u hu =>
      hunique u ⟨hfresh hu.1 (fresh_of_thisSize hu.2.1), hu.2⟩⟩

/-- In front of what is forgotten no bytes are left to be allocated. -/
theorem Forgotten.not_counted (h : Forgotten B T ctx) (hs : Inv B quiet T ctx done [] s) : ¬0 < s.curBufSize := by
  obtain ⟨pre, x, post, hctx, hover, hzero, t, ht, -⟩ := h
  intro hcur
  have hsplit := hs.split
  rw [append_nil] at hsplit
  -- the large tensor is among those that have been counted
  have hx : x ∈ s.pending := by
    by_contra hx
    refine hcur.ne' (hs.counted.trans ?_)
    have hnone : ∀ y ∈ s.pending, thisSize B T y = 0 := by
      rcases append_eq_append_iff.mp (hsplit.trans hctx) with ⟨as, -, hpending⟩ | ⟨as, -, hpost⟩
      · exact absurd (hpending ▸ mem_append_right as mem_cons_self) hx
      · cases as with
        | nil =>
          rw [nil_append] at hpost
          exact absurd (hpost ▸ mem_cons_self) hx
        | cons a as =>
          obtain ⟨-, hpost⟩ := List.cons.inj hpost
          exact fun y hy => hzero y (hpost ▸ mem_append_right as hy)
    exact sum_eq_zero fun n hn => by
      obtain ⟨y, hy, rfl⟩ := List.mem_map.mp hn
      exact hnone y hy
  obtain ⟨first, second, hpending⟩ := append_of_mem hx
  have hlarge : B.maxSize < s.curBufSize := by
    rw [hs.counted, hpending, total_append, total_cons]
    omega
  obtain ⟨before, y, halone, hbefore⟩ := hs.alone hlarge
  have hy : 0 < thisSize B T y := by
    rw [hs.counted, halone, total_append, hbefore, total_cons, total_nil] at hcur
    omega
  have hend : (done ++ before) ++ y :: [] = pre ++ x :: post := by
    rw [← hctx, ← hsplit, halone, append_assoc]
  have hnil : ([] : List Nat) = post := eq_behind_last (P := fun z => 0 < thisSize B T z) hend hy (by omega)
    (by simp) fun z hz => by rw [hzero z hz]; exact lt_irrefl 0
  exact absurd (hnil ▸ ht) not_mem_nil

/-- Everything is packed, unless something is forgotten. -/
theorem packsAll_iff (B : BufferType) (T : Nat → CtxTensor) (ctx : List Nat) (hpos : 0 < B.alignment)
    (hok : ContextOk T ctx) : PacksAll B T ctx ↔ ¬Forgotten B T ctx := by
  constructor
  · intro hpacks hforgotten
    -- a backend that refuses nothing
    let backend : Backend := { allocBuffer := fun _ _ => some B.alignment, initTensor := fun _ => true }
    have hbase : backend.Aligned B := fun _ _ base h => (some.inj h) ▸ dvd_refl _
    have hfine : True → backend.Fine := fun _ => ⟨fun _ _ => some_ne_none _, fun _ => rfl⟩
    have hends := allocCtxTensors_ends hpos hbase hfine hok.nodup fun _ => hok.ready
    obtain ⟨⟨result, s⟩, hrun, hresult, hrest⟩ := hends.returns fun e he => he.2 trivial
    rcases hrest with ⟨-, done, s', hs', hcur⟩ | ⟨done, hs, hcur⟩
    · exact hforgotten.not_counted hs' hcur
    · obtain ⟨pre, x, post, hctx, hover, hzero, t, ht, hneeds⟩ := hforgotten
      have hsplit := hs.split
      rw [append_nil] at hsplit
      have hnone : total B T s.pending = 0 := hs.counted.symm.trans hcur
      have hbuffers : s.buffers ≠ [] := by
        intro hnil
        rw [hs.empty hnil, nil_append] at hsplit
        have hx := thisSize_of_total hnone (hsplit ▸ hctx ▸ mem_append_right pre mem_cons_self)
        omega
      obtain ⟨before, y, hdone, hy⟩ := hs.large hcur hbuffers
      have hend : before ++ y :: s.pending = pre ++ x :: post := by
        rw [← hctx, ← hsplit, hdone, append_assoc, singleton_append]
      have hpending : s.pending = post := eq_behind_last (P := fun z => 0 < thisSize B T z) hend (by omega) (by omega)
        (fun z hz => by rw [thisSize_of_total hnone hz]; exact lt_irrefl 0)
        fun z hz => by rw [hzero z hz]; exact lt_irrefl 0
      have hsame : s.tensors t = T t := hs.kept t fun hmem =>
        disjoint_of_nodup_append (hsplit ▸ hok.nodup) hmem (hpending ▸ ht)
      have hmem : t ∈ ctx := hctx ▸ mem_append_right pre (mem_cons_of_mem x ht)
      rw [if_neg hbuffers] at hresult
      have hpacked := (hpacks backend hbase).2 s.buffers s (hresult ▸ hrun)
      rcases hneeds with hfresh | hview
      · obtain ⟨i, b, addr, -, -, hdata, -⟩ := hpacked.placed t hmem hfresh
        rw [hsame, hfresh.1] at hdata
        exact some_ne_none addr hdata.symm
      · obtain ⟨src, hsrc⟩ := ne_none_iff_exists'.mp hview.1
        obtain ⟨hbuffer, hbound, -⟩ := hpacked.bound t hmem hview src hsrc
        rw [hsame, hview.2] at hbound
        exact hbuffer hbound.symm
  · intro hnot backend hbase
    have hends : Ends _ (Excused False) (allocCtxTensors B backend ctx T false) :=
      allocCtxTensors_ends hpos hbase (fun h => h.elim) hok.nodup fun h => h.elim
    refine ⟨fun herror => (hends.of_error herror).1 rfl, fun buffers s hrun => ?_⟩
    obtain ⟨hresult, hrest⟩ := hends.of_ok hrun
    dsimp only at hresult hrest
    split at hresult
    · cases hresult
    · next hbuffers =>
      obtain rfl := some.inj hresult
      rcases hrest with ⟨hpacked, -⟩ | ⟨done, hs, hcur⟩
      · exact hpacked
      · obtain ⟨pre, x, hdone, hover⟩ := hs.large hcur hbuffers
        have hsplit := hs.split
        rw [append_nil] at hsplit
        have hnone : total B T s.pending = 0 := hs.counted.symm.trans hcur
        have hctx : ctx = pre ++ x :: s.pending := by
          rw [← hsplit, hdone, append_assoc, singleton_append]
        rw [← hsplit]
        refine hs.packed.idle fun t ht => ?_
        rw [← not_or]
        exact fun hneeds => hnot ⟨pre, x, s.pending, hctx, hover, fun y hy => thisSize_of_total hnone hy,
          t, ht, hneeds⟩

def viewPair (t : Nat) : CtxTensor :=
  if t = 1 then { nbytes := 100, viewSrc := some 0 } else { nbytes := 100 }

def hundredBytes (maxSize : Nat) : BufferType := { alignment := 32, maxSize, allocSize := fun _ => 100 }

theorem contextOk_viewPair : ContextOk viewPair [0, 1] := by
  refine ⟨by decide, fun pre t post h => ?_⟩
  rcases pre with _ | ⟨u, _ | ⟨v, pre⟩⟩
  · simp only [nil_append, List.cons.injEq] at h
    obtain ⟨rfl, -⟩ := h
    exact ⟨fun _ => rfl, fun src hsrc => by cases hsrc⟩
  · simp only [cons_append, nil_append, List.cons.injEq] at h
    obtain ⟨rfl, rfl, -⟩ := h
    refine ⟨fun hfresh => absurd hfresh (by decide), fun src hsrc _ => .inr ?_⟩
    obtain rfl := some.inj hsrc
    exact ⟨mem_cons_self, by decide⟩
  · simp at h

theorem packsAll_iff_viewPair : PacksAll (hundredBytes 256) viewPair [0, 1] := by
  refine (packsAll_iff (hundredBytes 256) viewPair [0, 1] (by decide) contextOk_viewPair).mpr ?_
  rintro ⟨pre, x, post, -, hover, -⟩
  have hle : thisSize (hundredBytes 256) viewPair x ≤ 128 := by
    unfold thisSize
    split
    · show ggmlPad 100 32 ≤ 128
      decide
    · exact Nat.zero_le _
  exact absurd hover (Nat.not_lt.mpr (hle.trans (by decide)))

/-- The view of a tensor that is larger than a buffer can be is forgotten. -/
theorem view_forgotten : ¬PacksAll (hundredBytes 64) viewPair [0, 1] := by
  intro h
  have hrun := (h { allocBuffer := fun _ _ => some 32, initTensor := fun _ => true }
    fun _ _ base hbase => (some.inj hbase) ▸ dvd_refl 32).2 [{ base := 32, size := 128 }] _ rfl
  exact absurd (hrun.bound 1 (by decide) (by decide) 0 rfl).2.1 (by decide)

end LlamaCpp.ContextTensors
