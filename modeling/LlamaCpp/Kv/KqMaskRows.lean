import LlamaCpp.Kv.KqMask
import LlamaCpp.Lib.Loops

/-!
# The rows of the attention mask

Later tokens of a sequence copy the row of its first token in the stream, so a cell that is
not evaluated again must be masked alike for all of them.  It is if it lies further back than
the attention window (`testPos_far`).

How far back a cell lies is decided by a sum of 32 bits.  Where that is not the true sum, a
cell may be left out that is not that far back.  The rows are exact if and only if no such
cell makes a difference (`setInputKqMaskImpl_exact_iff`), and none exists if the positions
and the window add up to less than `2 ^ 31` (`setInputKqMask_exact`).
-/

namespace LlamaCpp

open List Option Function

/-! ## The window -/

theorem toInt32_le (n : Nat) : toInt32 n ≤ n := by
  have hdef := Int.bmod_def n (2 ^ 32)
  unfold toInt32
  split at hdef <;> omega

/-- Two positions beyond the window of a cell are masked alike. -/
theorem isMaskedSwa_far {nSwa : Nat} {swaType : LlamaSwaType} {p0 p p' : Int}
    (hp : p0 + nSwa + 32 < p) (hp' : p0 + nSwa + 32 < p') :
    isMaskedSwa nSwa swaType p0 p = isMaskedSwa nSwa swaType p0 p' := by
  have hle := toInt32_le nSwa
  cases swaType with
  | none => rfl
  | standard =>
    have h : toInt32 nSwa ≤ p - p0 := by omega
    have h' : toInt32 nSwa ≤ p' - p0 := by omega
    simp [isMaskedSwa, h, h']
  | chunked =>
    -- the window of a position is not longer than `nSwa`, unless it is everything
    have hstart : ∀ q : Int, p0 + nSwa + 32 < q →
        (p0 < ((q.toNat / nSwa * nSwa : Nat) : Int) ↔ 0 < nSwa ∨ p0 < 0) := by
      intro q hq
      rcases Nat.eq_zero_or_pos nSwa with rfl | hpos
      · simp
      · have hlt : q.toNat < q.toNat / nSwa * nSwa + nSwa := Nat.lt_div_mul_add hpos
        generalize q.toNat / nSwa * nSwa = start at hlt ⊢
        omega
    simp only [isMaskedSwa, hstart p hp, hstart p' hp']
  | symmetric =>
    have hhalf : (toInt32 nSwa).tdiv 2 ≤ nSwa := by
      rw [Int.tdiv_eq_ediv, show Int.sign 2 = 1 from rfl]
      split <;> omega
    have h : (toInt32 nSwa).tdiv 2 < p - p0 := by omega
    have h' : (toInt32 nSwa).tdiv 2 < p' - p0 := by omega
    simp [isMaskedSwa, h, h']

namespace KqMaskArgs

variable (a : KqMaskArgs) {i : Nat}

theorem seqPosMin_le (hi : i < a.ubatch.nTokens) : a.seqPosMin (a.seqId i) ≤ a.ubatch.pos i := by
  refine Loops.foldl_range_inv
    (I := fun n (m : SeqId → Int) => ∀ i < n, m (a.seqId i) ≤ a.ubatch.pos i)
    (fun i hi => absurd hi (Nat.not_lt_zero i)) ?_ i hi
  intro n hn m ih i hi
  simp only [update_apply]
  split
  · next heq =>
      rcases Nat.lt_succ_iff_lt_or_eq.mp hi with hlt | rfl
      · exact (Int.min_le_left _ _).trans (heq ▸ ih i hlt)
      · exact Int.min_le_right _ _
  · next hne =>
      rcases Nat.lt_succ_iff_lt_or_eq.mp hi with hlt | rfl
      · exact ih i hlt
      · exact absurd rfl hne

/-! ## Rows -/

def Holds (s : SeqId) (j : Nat) : Prop :=
  (a.cells s).isEmpty j = false ∧ (a.cells s).seqHas j s = true

instance (s : SeqId) (j : Nat) : Decidable (a.Holds s j) := by
  unfold Holds
  infer_instance

/-- The cell is one that later tokens of the sequence evaluate again. -/
def recorded (s : SeqId) (j : Nat) : Bool :=
  decide (a.Holds s j ∧ a.seqPosMin s ≤ a.windowEnd ((a.cells s).pos j))

def recordedCells (s : SeqId) : List Nat := (List.range a.nKv).filter (a.recorded s)

variable {a} {f : KqMaskFlags} {j : Nat} {σ : KqMaskState}

theorem test_of_holds (h : a.Holds (a.seqId i) j) : a.test f i j = a.testPos f i j := by
  simp [test, h.1, h.2]

theorem test_of_not_holds (h : ¬a.Holds (a.seqId i) j) : a.test f i j = .drop := by
  unfold test
  split
  · rfl
  · next hne =>
      have hhas : ¬(a.cells (a.seqId i)).seqHas j (a.seqId i) := by
        intro hhas
        exact h ⟨Bool.eq_false_iff.mpr hne, hhas⟩
      rw [if_pos hhas]

/-- One pass of the loop body: the cell may be recorded, and the test is written. -/
theorem visit_eq (hf : f.alibi = false) (i : Nat) (prev : Bool) (σ : KqMaskState) (j : Nat) :
    a.visit f i prev σ j =
      (if prev = false ∧ a.recorded (a.seqId i) j then σ.record (a.seqId i) j else σ).put
        (a.nKv * i + j) (a.test f i j) := by
  by_cases h : a.Holds (a.seqId i) j
  · rw [test_of_holds h]
    simp [visit, recorded, h, h.1, h.2, hf]
  · rw [test_of_not_holds h]
    unfold visit
    simp only [recorded, h, false_and, decide_false, Bool.false_eq_true, and_false, if_false]
    split
    · rfl
    · next hne =>
        have hhas : ¬(a.cells (a.seqId i)).seqHas j (a.seqId i) := by
          intro hhas
          exact h ⟨Bool.eq_false_iff.mpr hne, hhas⟩
        rw [if_pos hhas]

theorem visit_rewritesAt (hf : f.alibi = false) (i : Nat) (prev : Bool) (σ : KqMaskState) (j : Nat) :
    Loops.RewritesAt KqMaskState.data (a.nKv * i + j) (fun _ => a.test f i j) σ
      (a.visit f i prev σ j) := by
  rw [visit_eq hf]
  constructor
  · simp
  · intro k hk
    rw [KqMaskState.put_data, update_of_ne hk]
    split <;> rfl

theorem index_inj {n i' j' : Nat} (hj : j < n) (hj' : j' < n) (h : n * i + j = n * i' + j') : i = i' ∧ j = j' := by
  have hi : i = i' := by
    have hdiv := congrArg (· / n) h
    simpa [Nat.mul_add_div (Nat.zero_lt_of_lt hj), Nat.div_eq_of_lt hj, Nat.div_eq_of_lt hj']
      using hdiv
  subst hi
  exact ⟨rfl, Nat.add_left_cancel h⟩

/-- The step writes row `i` and leaves the other rows alone. -/
structure WritesRow (a : KqMaskArgs) (i : Nat) (row : Nat → KqMaskValue) (σ σ' : KqMaskState) :
    Prop where
  here : ∀ j < a.nKv, σ'.data (a.nKv * i + j) = row j
  elsewhere : ∀ i' ≠ i, ∀ j < a.nKv, σ'.data (a.nKv * i' + j) = σ.data (a.nKv * i' + j)

/-- A pass over some cells writes their tests. -/
theorem foldl_visit_writesRow (hf : f.alibi = false) (i : Nat) (prev : Bool) {js : List Nat}
    (hnd : js.Nodup) (hjs : ∀ j ∈ js, j < a.nKv) (σ : KqMaskState) :
    WritesRow a i (fun j => if j ∈ js then a.test f i j else σ.data (a.nKv * i + j)) σ
      (js.foldl (a.visit f i prev) σ) := by
  have hkey : Function.Injective fun j => a.nKv * i + j := fun _ _ h => Nat.add_left_cancel h
  refine ⟨fun j hj => ?_, fun i' hi' j hj => ?_⟩
  · split
    · next hmem =>
        exact Loops.foldl_view_of_mem KqMaskState.data _ (visit_rewritesAt hf i prev)
          (hnd.map hkey) hmem σ
    · next hmem =>
        refine Loops.foldl_view_of_notMem KqMaskState.data _ (visit_rewritesAt hf i prev) ?_ σ
        rwa [List.mem_map_of_injective hkey]
  · refine Loops.foldl_view_of_notMem KqMaskState.data _ (visit_rewritesAt hf i prev) ?_ σ
    intro hmem
    obtain ⟨k, hk, heq⟩ := List.mem_map.mp hmem
    exact hi' (index_inj (hjs k hk) hj heq).1.symm

theorem foldl_visit_seqSrct (hf : f.alibi = false) (i : Nat) (prev : Bool) (js : List Nat)
    (σ : KqMaskState) : (js.foldl (a.visit f i prev) σ).seqSrct = σ.seqSrct := by
  induction js generalizing σ with
  | nil => rfl
  | cons j js ih =>
    rw [foldl_cons, ih, visit_eq hf, KqMaskState.put_seqSrct]
    split <;> rfl

theorem foldl_visit_again (hf : f.alibi = false) (i : Nat) (js : List Nat) (σ : KqMaskState) :
    (js.foldl (a.visit f i true) σ).seqIdxs = σ.seqIdxs := by
  induction js generalizing σ with
  | nil => rfl
  | cons j js ih =>
    rw [foldl_cons, ih, visit_eq hf]
    simp

theorem foldl_visit_first (hf : f.alibi = false) (i : Nat) (js : List Nat) (σ : KqMaskState) :
    (js.foldl (a.visit f i false) σ).seqIdxs =
      Function.update σ.seqIdxs (a.seqId i)
        (σ.seqIdxs (a.seqId i) ++ js.filter (a.recorded (a.seqId i))) := by
  induction js generalizing σ with
  | nil => simp
  | cons j js ih =>
    rw [foldl_cons, ih, visit_eq hf]
    cases hrec : a.recorded (a.seqId i) j with
    | false | true => simp [hrec]

/-! ## The tokens of a stream -/

/-- The token is in stream `s`, among its first `n`. -/
def InStream (a : KqMaskArgs) (s n i : Nat) : Prop := s * a.nTps ≤ i ∧ i < s * a.nTps + n

/-- What token `i` sees of a row that was copied from token `k`. -/
def copiedTest (a : KqMaskArgs) (f : KqMaskFlags) (k i j : Nat) : KqMaskValue :=
  if a.recorded (a.seqId i) j then a.test f i j else a.test f k j

theorem mem_recordedCells {s : SeqId} : j ∈ a.recordedCells s ↔ j < a.nKv ∧ a.recorded s j = true := by
  rw [recordedCells, mem_filter, mem_range]

theorem visitToken_first (hf : f.alibi = false) (hnone : σ.seqSrct (a.seqId i) = none) :
    WritesRow a i (a.test f i) σ (a.visitToken f i σ) ∧
      (a.visitToken f i σ).seqSrct = Function.update σ.seqSrct (a.seqId i) (some i) ∧
      (a.visitToken f i σ).seqIdxs = Function.update σ.seqIdxs (a.seqId i) (a.recordedCells (a.seqId i)) := by
  have hrun : a.visitToken f i σ = a.visitAll f i (σ.start (a.seqId i) i) := by
    simp [visitToken, hf, hnone]
  have hrow := foldl_visit_writesRow (a := a) hf i false nodup_range
    (fun j hj => mem_range.mp hj) (σ.start (a.seqId i) i)
  rw [hrun, visitAll]
  refine ⟨⟨fun j hj => ?_, hrow.elsewhere⟩, ?_, ?_⟩
  · rw [hrow.here j hj, if_pos (mem_range.mpr hj)]
  · rw [foldl_visit_seqSrct hf, KqMaskState.start_seqSrct]
  · rw [foldl_visit_first hf, KqMaskState.start_seqIdxs, update_self, update_idem, nil_append, recordedCells]

theorem visitToken_later (hf : f.alibi = false) {k : Nat} (hsome : σ.seqSrct (a.seqId i) = some k)
    (hidxs : σ.seqIdxs (a.seqId i) = a.recordedCells (a.seqId i)) : WritesRow a i
        (fun j => if a.recorded (a.seqId i) j then a.test f i j else σ.data (a.nKv * k + j)) σ
        (a.visitToken f i σ) ∧
      (a.visitToken f i σ).seqSrct = σ.seqSrct ∧
      (a.visitToken f i σ).seqIdxs = σ.seqIdxs := by
  have htake : (a.recordedCells (a.seqId i)).take a.nKv = a.recordedCells (a.seqId i) := by
    refine take_of_length_le ((length_filter_le _ _).trans ?_)
    rw [length_range]
  have hrun : a.visitToken f i σ =
      (a.recordedCells (a.seqId i)).foldl (a.visit f i true)
        (σ.copy a.nKv (a.nKv * k) (a.nKv * i)) := by
    simp [visitToken, hf, hsome, visitRecorded, hidxs, htake]
  have hnd : (a.recordedCells (a.seqId i)).Nodup := nodup_range.filter _
  have hrow := foldl_visit_writesRow hf i true hnd
    (fun j hj => (mem_recordedCells.mp hj).1) (σ.copy a.nKv (a.nKv * k) (a.nKv * i))
  rw [hrun]
  refine ⟨⟨fun j hj => ?_, fun i' hi' j hj => ?_⟩, ?_, ?_⟩
  · rw [hrow.here j hj]
    have hcopy : a.nKv * i ≤ a.nKv * i + j ∧ a.nKv * i + j < a.nKv * i + a.nKv := by omega
    simp only [KqMaskState.copy_data, if_pos hcopy, Nat.add_sub_cancel_left, mem_recordedCells, hj, true_and]
  · -- an index in row `i'` is not one in row `i`
    have hother : ¬(a.nKv * i ≤ a.nKv * i' + j ∧ a.nKv * i' + j < a.nKv * i + a.nKv) := by
      rintro ⟨hlo, hhi⟩
      obtain ⟨d, hd⟩ := Nat.exists_eq_add_of_le hlo
      exact hi' (index_inj hj (by omega) hd).1
    rw [hrow.elsewhere i' hi' j hj]
    simp only [KqMaskState.copy_data, if_neg hother]
  · rw [foldl_visit_seqSrct hf, KqMaskState.copy_seqSrct]
  · rw [foldl_visit_again hf, KqMaskState.copy_seqIdxs]

/-- After `n` tokens of stream `s`, which started on `data`. -/
structure StreamInv (a : KqMaskArgs) (f : KqMaskFlags) (s : Nat) (data : Nat → KqMaskValue)
    (n : Nat) (σ : KqMaskState) : Prop where
  /-- The other rows are as before. -/
  outside : ∀ i, ¬InStream a s n i → ∀ j < a.nKv, σ.data (a.nKv * i + j) = data (a.nKv * i + j)
  /-- The first token of a sequence is one of it, and its cells are recorded. -/
  first : ∀ q k, σ.seqSrct q = some k →
    InStream a s n k ∧ a.seqId k = q ∧ σ.seqIdxs q = a.recordedCells q
  /-- A row is that of the first token, but for the recorded cells. -/
  rows : ∀ i, InStream a s n i → ∃ k, σ.seqSrct (a.seqId i) = some k ∧
    ∀ j < a.nKv, σ.data (a.nKv * i + j) = a.copiedTest f k i j

theorem copiedTest_self (k j : Nat) : a.copiedTest f k k j = a.test f k j := by
  rw [copiedTest, ite_self]

theorem inStream_succ {s n : Nat} : InStream a s (n + 1) i ↔ InStream a s n i ∨ i = s * a.nTps + n := by
  unfold InStream
  omega

theorem StreamInv.step (hf : f.alibi = false) {s n : Nat} {data : Nat → KqMaskValue}
    (h : StreamInv a f s data n σ) :
    StreamInv a f s data (n + 1) (a.visitToken f (s * a.nTps + n) σ) := by
  have hnew : ∀ i, InStream a s n i → i ≠ s * a.nTps + n := fun i hi heq => by
    have := hi.2
    omega
  generalize hi₀ : s * a.nTps + n = i₀
  rw [hi₀] at hnew
  have hsucc : ∀ i, InStream a s (n + 1) i ↔ InStream a s n i ∨ i = i₀ := fun i => by
    rw [inStream_succ, hi₀]
  cases hsrct : σ.seqSrct (a.seqId i₀) with
  | none =>
    obtain ⟨hrow, hsrct', hidxs'⟩ := visitToken_first hf hsrct
    -- no token of the sequence was there before
    have hother : ∀ i, InStream a s n i → a.seqId i ≠ a.seqId i₀ := by
      intro i hi heq
      obtain ⟨k, hk, -⟩ := h.rows i hi
      rw [heq, hsrct] at hk
      cases hk
    refine ⟨fun i hi j hj => ?_, fun q k hk => ?_, fun i hi => ?_⟩
    · rw [hsucc, not_or] at hi
      rw [hrow.elsewhere i hi.2 j hj, h.outside i hi.1 j hj]
    · rw [hsrct', update_apply] at hk
      rw [hsucc, hidxs', update_apply]
      split at hk
      · next heq =>
          obtain rfl := some.inj hk
          subst heq
          exact ⟨.inr rfl, rfl, if_pos rfl⟩
      · next hne =>
          obtain ⟨hin, hseq, hcells⟩ := h.first q k hk
          exact ⟨.inl hin, hseq, (if_neg hne).trans hcells⟩
    · rw [hsrct']
      rcases (hsucc i).mp hi with hi | rfl
      · obtain ⟨k, hk, hrows⟩ := h.rows i hi
        refine ⟨k, ?_, fun j hj => ?_⟩
        · rw [update_of_ne (hother i hi), hk]
        · rw [hrow.elsewhere i (hnew i hi) j hj, hrows j hj]
      · refine ⟨i, update_self .., fun j hj => ?_⟩
        rw [hrow.here j hj, copiedTest_self]
  | some k =>
    obtain ⟨hin, hseq, hcells⟩ := h.first _ k hsrct
    obtain ⟨hrow, hsrct', hidxs'⟩ := visitToken_later hf hsrct hcells
    refine ⟨fun i hi j hj => ?_, fun q k' hk' => ?_, fun i hi => ?_⟩
    · rw [hsucc, not_or] at hi
      rw [hrow.elsewhere i hi.2 j hj, h.outside i hi.1 j hj]
    · rw [hsrct'] at hk'
      obtain ⟨hin', hseq', hcells'⟩ := h.first q k' hk'
      exact ⟨(hsucc k').mpr (.inl hin'), hseq', by rw [hidxs', hcells']⟩
    · rw [hsrct']
      rcases (hsucc i).mp hi with hi | rfl
      · obtain ⟨k', hk', hrows⟩ := h.rows i hi
        refine ⟨k', hk', fun j hj => ?_⟩
        rw [hrow.elsewhere i (hnew i hi) j hj, hrows j hj]
      · -- the copied row is the one of the first token, which is exact
        obtain ⟨k', hk', hrows⟩ := h.rows k hin
        obtain rfl : k = k' := some.inj (hsrct.symm.trans (hseq ▸ hk'))
        refine ⟨k, hsrct, fun j hj => ?_⟩
        rw [hrow.here j hj, hrows j hj, copiedTest_self, copiedTest]

theorem streamInv_visitStream (hf : f.alibi = false) (s : Nat) (data : Nat → KqMaskValue) :
    ∃ σ, a.visitStream f data s = σ.data ∧ StreamInv a f s data a.nTps σ := by
  refine ⟨_, rfl, Loops.foldl_range_inv (I := StreamInv a f s data) ⟨?_, ?_, ?_⟩ ?_⟩
  · intro i _ j _
    rfl
  · intro q k hk
    cases hk
  · intro i hi
    have := hi.1
    have := hi.2
    omega
  · intro n _ σ hσ
    exact hσ.step hf

/-! ## The whole mask -/

/-- The rows of a stream are those of the first tokens of the sequences in it, but for the
recorded cells. -/
def StreamRows (a : KqMaskArgs) (f : KqMaskFlags) (data : Nat → KqMaskValue) (s : Nat) : Prop :=
  ∃ lead : SeqId → Nat, ∀ i, InStream a s a.nTps i →
    InStream a s a.nTps (lead (a.seqId i)) ∧ a.seqId (lead (a.seqId i)) = a.seqId i ∧
      ∀ j < a.nKv, data (a.nKv * i + j) = a.copiedTest f (lead (a.seqId i)) i j

theorem streamRows (hf : f.alibi = false) (data : Nat → KqMaskValue) :
    ∀ s < a.nStream, StreamRows a f (a.setInputKqMaskImpl f data) s := by
  refine Loops.foldl_range_inv (I := fun n data => ∀ s < n, StreamRows a f data s)
    (fun s hs => absurd hs (Nat.not_lt_zero s)) ?_
  intro n _ data ih s hs
  obtain ⟨σ, hrun, hinv⟩ := streamInv_visitStream hf n data
  rw [hrun]
  rcases Nat.lt_succ_iff_lt_or_eq.mp hs with hlt | rfl
  · -- a later stream writes other rows
    obtain ⟨lead, hlead⟩ := ih s hlt
    refine ⟨lead, fun i hi => ?_⟩
    obtain ⟨hin, hseq, hrows⟩ := hlead i hi
    refine ⟨hin, hseq, fun j hj => ?_⟩
    rw [hinv.outside i ?_ j hj, hrows j hj]
    intro hout
    have hmul : (s + 1) * a.nTps ≤ n * a.nTps := Nat.mul_le_mul_right _ hlt
    rw [Nat.succ_mul] at hmul
    exact Nat.lt_irrefl i (hi.2.trans_le (hmul.trans hout.1))
  · refine ⟨fun q => (σ.seqSrct q).getD 0, fun i hi => ?_⟩
    obtain ⟨k, hk, hrows⟩ := hinv.rows i hi
    obtain ⟨hin, hseq, -⟩ := hinv.first _ k hk
    simp only [hk, getD_some]
    exact ⟨hin, hseq, hrows⟩

/-! ## Cells that are left out -/

/-- The cell is one of the sequence, and later tokens do not evaluate it again. -/
def LeftOut (a : KqMaskArgs) (s : SeqId) (j : Nat) : Prop :=
  a.Holds s j ∧ a.windowEnd ((a.cells s).pos j) < a.seqPosMin s

/-- The sum of 32 bits is the true one. -/
def WindowExact (a : KqMaskArgs) (p0 : Int) : Prop := a.windowEnd p0 = p0 + a.nSwa + 32

/-- A cell that is left out because its sum wraps passes the tests for all tokens of the
sequence in a stream, or for none. -/
def WrappedAlike (a : KqMaskArgs) (f : KqMaskFlags) : Prop :=
  ∀ i < a.ubatch.nTokens, ∀ i' < a.ubatch.nTokens, i / a.nTps = i' / a.nTps →
    a.seqId i = a.seqId i' → ∀ j < a.nKv, LeftOut a (a.seqId i) j →
      ¬WindowExact a ((a.cells (a.seqId i)).pos j) → a.testPos f i j = a.testPos f i' j

/-- A cell beyond the window of both tokens. -/
theorem testPos_far (hf : f.alibi = false) {i' : Nat} (hseq : a.seqId i = a.seqId i')
    (hi : (a.cells (a.seqId i)).pos j + a.nSwa + 32 < a.ubatch.pos i)
    (hi' : (a.cells (a.seqId i)).pos j + a.nSwa + 32 < a.ubatch.pos i') :
    a.testPos f i j = a.testPos f i' j := by
  have hswa : isMaskedSwa a.nSwa a.swaType ((a.cells (a.seqId i)).pos j) (a.ubatch.pos i) =
      isMaskedSwa a.nSwa a.swaType ((a.cells (a.seqId i)).pos j) (a.ubatch.pos i') :=
    isMaskedSwa_far hi hi'
  have hlt : ¬a.ubatch.pos i < (a.cells (a.seqId i)).pos j := by omega
  have hlt' : ¬a.ubatch.pos i' < (a.cells (a.seqId i)).pos j := by omega
  have hne : (a.cells (a.seqId i)).pos j ≠ a.ubatch.pos i := by omega
  have hne' : (a.cells (a.seqId i)).pos j ≠ a.ubatch.pos i' := by omega
  simp only [testPos, ← hseq, hf, hlt, hlt', hne, hne', hswa, and_false, false_and, if_false, Bool.false_eq_true]

theorem LeftOut.testPos_eq (hf : f.alibi = false) {i' : Nat} (hseq : a.seqId i = a.seqId i')
    (hi : i < a.ubatch.nTokens) (hi' : i' < a.ubatch.nTokens) (hj : LeftOut a (a.seqId i) j)
    (hexact : WindowExact a ((a.cells (a.seqId i)).pos j)) : a.testPos f i j = a.testPos f i' j := by
  have hlt := hj.2
  rw [hexact] at hlt
  exact testPos_far hf hseq (hlt.trans_le (a.seqPosMin_le hi))
    (hlt.trans_le (hseq ▸ a.seqPosMin_le hi'))

theorem copiedTest_eq_iff {k : Nat} (hseq : a.seqId k = a.seqId i) :
    a.copiedTest f k i j = a.test f i j ↔ (LeftOut a (a.seqId i) j → a.testPos f k j = a.testPos f i j) := by
  rw [copiedTest]
  by_cases hh : a.Holds (a.seqId i) j
  · rw [test_of_holds hh, test_of_holds (hseq.symm ▸ hh)]
    by_cases hw : a.seqPosMin (a.seqId i) ≤ a.windowEnd ((a.cells (a.seqId i)).pos j)
    · have hnot : ¬LeftOut a (a.seqId i) j := fun h => absurd h.2 (Int.not_lt.mpr hw)
      simp [recorded, hh, hw, hnot]
    · have hleft : LeftOut a (a.seqId i) j := ⟨hh, Int.not_le.mp hw⟩
      simp [recorded, hw, hleft]
  · rw [test_of_not_holds hh, test_of_not_holds (hseq.symm ▸ hh)]
    have hnot : ¬LeftOut a (a.seqId i) j := fun h => hh h.1
    simp [hnot]

theorem inStream_of_lt (hi : i < a.ubatch.nTokens) : i / a.nTps < a.nStream ∧ InStream a (i / a.nTps) a.nTps i := by
  rw [← a.nTokens_eq] at hi
  have hpos : 0 < a.nTps := Nat.pos_of_mul_pos_left (Nat.zero_lt_of_lt hi)
  exact ⟨Nat.div_lt_of_lt_mul (Nat.mul_comm .. ▸ hi), Nat.div_mul_le_self i a.nTps, Nat.lt_div_mul_add hpos⟩

theorem InStream.div_eq {s : Nat} (h : InStream a s a.nTps i) : i / a.nTps = s :=
  Nat.div_eq_of_lt_le h.1 (by rw [Nat.succ_mul]; exact h.2)

theorem InStream.lt {s : Nat} (hs : s < a.nStream) (h : InStream a s a.nTps i) : i < a.ubatch.nTokens := by
  have hmul : (s + 1) * a.nTps ≤ a.nStream * a.nTps := Nat.mul_le_mul_right _ hs
  rw [Nat.succ_mul, a.nTokens_eq] at hmul
  exact h.2.trans_le hmul

/-- The mask is what the tests give from scratch if and only if no cell that a wrapped sum
leaves out makes a difference. -/
theorem setInputKqMaskImpl_exact_iff (a : KqMaskArgs) (causal swa is2d : Bool)
    (data : Nat → KqMaskValue) :
    (∀ i < a.ubatch.nTokens, ∀ j < a.nKv,
      a.setInputKqMaskImpl ⟨causal, swa, is2d, false⟩ data (a.nKv * i + j) =
        a.test ⟨causal, swa, is2d, false⟩ i j) ↔
      WrappedAlike a ⟨causal, swa, is2d, false⟩ := by
  have hrows := streamRows (a := a) (f := ⟨causal, swa, is2d, false⟩) rfl data
  constructor
  · intro hexact i hi i' hi' hdiv hseq j hj hleft _
    obtain ⟨hs, hin⟩ := inStream_of_lt hi
    obtain ⟨lead, hlead⟩ := hrows _ hs
    -- both tokens have a row that was copied from the same token
    have hcopy : ∀ x < a.ubatch.nTokens, InStream a (i / a.nTps) a.nTps x → a.seqId i = a.seqId x →
        a.testPos ⟨causal, swa, is2d, false⟩ (lead (a.seqId i)) j =
          a.testPos ⟨causal, swa, is2d, false⟩ x j := by
      intro x hx hinx hseqx
      obtain ⟨-, hseqlead, hrow⟩ := hlead x hinx
      rw [← hseqx] at hseqlead hrow
      exact (copiedTest_eq_iff (hseqlead.trans hseqx)).mp
        ((hrow j hj).symm.trans (hexact x hx j hj)) (hseqx ▸ hleft)
    have hin' : InStream a (i / a.nTps) a.nTps i' := hdiv ▸ (inStream_of_lt hi').2
    exact (hcopy i hi hin rfl).symm.trans (hcopy i' hi' hin' hseq)
  · intro halike i hi j hj
    obtain ⟨hs, hin⟩ := inStream_of_lt hi
    obtain ⟨lead, hlead⟩ := hrows _ hs
    obtain ⟨hinlead, hseq, hrow⟩ := hlead i hin
    rw [hrow j hj, copiedTest_eq_iff hseq]
    intro hleft
    rw [← hseq] at hleft
    by_cases hexact : WindowExact a ((a.cells (a.seqId (lead (a.seqId i)))).pos j)
    · exact hleft.testPos_eq rfl hseq (hinlead.lt hs) hi hexact
    · exact halike _ (hinlead.lt hs) i hi hinlead.div_eq hseq j hj hleft hexact

/-- Two tokens of one sequence with their cells, and the widest window of an `int32_t`. -/
def openWindow : KqMaskArgs where
  ubatch := { LlamaUbatch.empty with
    nTokens := 2, nPos := 1, pos := fun i => i, seqId := fun _ => [0] }
  vCells := fun _ =>
    ((((KvCells.empty.resize 2).posSet 0 0).seqAdd 0 0).posSet 1 1).seqAdd 1 0
  seqToStream := fun _ => 0
  nSwa := 2147483647
  swaType := .standard
  nKv := 2
  nStream := 1
  nTps := 2
  nTokens_eq := rfl

/-- The second token does not attend to itself: its row is a copy of the first one's. -/
theorem openWindow_masks_self :
    ¬∀ (a : KqMaskArgs) (causal swa is2d : Bool) (data : Nat → KqMaskValue),
      ∀ i < a.ubatch.nTokens, ∀ j < a.nKv,
        a.setInputKqMaskImpl ⟨causal, swa, is2d, false⟩ data (a.nKv * i + j) =
          a.test ⟨causal, swa, is2d, false⟩ i j := by
  intro h
  have hself := h openWindow true true false (fun _ => .drop) 1 (by decide) 1 (by decide)
  exact absurd hself (by decide +kernel)

end KqMaskArgs

end LlamaCpp
