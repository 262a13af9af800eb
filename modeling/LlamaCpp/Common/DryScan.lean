import LlamaCpp.Common.RingBuffer
import LlamaCpp.Lib.Loops
import Mathlib.Data.List.Induction
import Mathlib.Order.Bounds.Basic

/-!
# The scan of the DRY sampler

Steps 2 and 3 of `llama_sampler_dry_apply` of llama-sampler.cpp.  The Z-algorithm clips an entry when it writes it, and
reads it again for a later place.  The box is not clipped, so that an entry that is clipped below what is left of the box
stands for an entry that is clipped as well (`BoxInv.turn`).
-/

namespace LlamaCpp.DryScan

open List

open Function (update)

variable {β : Type}

section Scan

/-! `N` is `last_n_repeat`, and `L` is `rep_limit`. -/

variable [DecidableEq β] (rat : Nat → β) (N L : Nat)

/-- `while (n + k < last_n_repeat && rat(n) == rat(n + k)) ++n`, with the number of places that are left -/
def repeatFrom (k : Nat) : Nat → Nat → Nat
  | 0, n => n
  | left + 1, n => if rat n = rat (n + k) then repeatFrom k left (n + 1) else n

/-- `dry_repeat_count` and the bounds of the Z-box -/
structure ZBox where
  count : Nat → Nat := fun _ => 0
  lt : Nat := 0
  rt : Nat := 0

/-- The turn for `k`.  In a box the source counts `i = n + k`. -/
def turn (z : ZBox) (k : Nat) : ZBox :=
  let last := N - 1
  if z.rt < k then
    let n := repeatFrom rat k (N - k) 0
    { count := update z.count (last - k) (min n L)
      lt := if 0 < n then k else z.lt
      rt := if 0 < n then k + n - 1 else z.rt }
  else
    let p := k - z.lt
    let rightPartLen := z.rt - k + 1
    if z.count (last - p) < rightPartLen then
      { z with count := update z.count (last - k) (min (z.count (last - p)) L) }
    else
      let n := repeatFrom rat k (N - (z.rt + 1)) (z.rt + 1 - k)
      { count := update z.count (last - k) (min n L), lt := k, rt := n + k - 1 }

def repeatCount : Nat → Nat :=
  ((List.range (N - 1)).foldl (fun z i => turn rat N L z (i + 1)) {}).count

/-- `dry_max_token_repeat[token] = repeat_len`, unless there is as large an entry -/
def record (allowed : Int) (m : β → Option Nat) (token : β) (repeatLen : Nat) : β → Option Nat :=
  if allowed ≤ repeatLen ∧ (m token).all (· < repeatLen) = true then update m token (some repeatLen) else m

def maxTokenRepeat (count : Nat → Nat) (allowed : Int) : β → Option Nat :=
  (List.range (N - 1)).foldl (fun m i => record allowed m (rat (N - 2 - i)) (count i)) fun _ => none

/-- The length of the longest common prefix -/
def lcp : List β → List β → Nat
  | x :: xs, y :: ys => if x = y then lcp xs ys + 1 else 0
  | _, _ => 0

end Scan

/-- `last_tokens` after a history -/
def lastTokens (capacity : Nat) (history : List Int) : Option (RingBuffer Int) :=
  history.foldlM RingBuffer.pushBack { capacity := capacity, data := fun _ => 0 }

theorem lcp_eq [DecidableEq β] {xs ys : List β} {n : Nat} (h : ∀ i < n, ∃ v, xs[i]? = some v ∧ ys[i]? = some v)
    (hend : ¬∃ v, xs[n]? = some v ∧ ys[n]? = some v) : lcp xs ys = n := by
  induction n generalizing xs ys with
  | zero =>
    cases xs with
    | nil => rfl
    | cons x xs =>
      cases ys with
      | nil => rfl
      | cons y ys => exact if_neg fun heq => hend ⟨x, rfl, congrArg some heq.symm⟩
  | succ n ih =>
    obtain ⟨v, hx, hy⟩ := h 0 (Nat.succ_pos n)
    cases xs with
    | nil => cases hx
    | cons x xs =>
      cases ys with
      | nil => cases hy
      | cons y ys =>
        cases hx
        cases hy
        rw [lcp, if_pos rfl, ih (fun i hi => h (i + 1) (Nat.succ_lt_succ hi)) hend]

/-! ## The Z-box -/

section Box

variable (rat : Nat → β) (N L : Nat)

/-- The first `n` places are as those that are `k` further. -/
def Matches (k n : Nat) : Prop := ∀ i < n, i + k < N ∧ rat i = rat (i + k)

/-- And no more places are. -/
structure IsRepeat (k n : Nat) : Prop where
  same : Matches rat N k n
  ends : n + k < N → rat n ≠ rat (n + k)

/-- A box that reaches to `k` repeats the beginning. -/
def BoxOk (lt rt k : Nat) : Prop := k ≤ rt → 1 ≤ lt ∧ lt < k ∧ rt < N ∧ Matches rat N lt (rt + 1 - lt)

/-- The entries in front of `k` are right. -/
structure BoxInv (z : ZBox) (k : Nat) : Prop where
  count : ∀ j, 1 ≤ j → j < k → ∃ n, IsRepeat rat N j n ∧ z.count (N - 1 - j) = min n L
  box : BoxOk rat N z.lt z.rt k

variable {rat N L} {k n : Nat} {z : ZBox}

theorem repeatFrom_spec [DecidableEq β] {left : Nat} (hleft : n + k + left = N) (h : Matches rat N k n) :
    IsRepeat rat N k (repeatFrom rat k left n) ∧ n ≤ repeatFrom rat k left n := by
  induction left generalizing n with
  | zero =>
    rw [repeatFrom]
    exact ⟨⟨h, fun hlt => absurd hleft (Nat.ne_of_lt hlt)⟩, Nat.le_refl n⟩
  | succ left ih =>
    rw [repeatFrom]
    split
    · next heq =>
      have hmore : Matches rat N k (n + 1) := by
        intro i hi
        rcases Nat.lt_succ_iff_lt_or_eq.mp hi with hlt | rfl
        · exact h i hlt
        · exact ⟨by omega, heq⟩
      obtain ⟨hr, hle⟩ := ih (by omega) hmore
      exact ⟨hr, Nat.le_of_succ_le hle⟩
    · next hne => exact ⟨⟨h, fun _ => hne⟩, Nat.le_refl n⟩

theorem BoxInv.next (h : BoxInv rat N L z k) (hk : k < N) (hn : IsRepeat rat N k n) {c lt rt : Nat}
    (hc : c = min n L) (hbox : BoxOk rat N lt rt (k + 1)) :
    BoxInv rat N L ⟨update z.count (N - 1 - k) c, lt, rt⟩ (k + 1) where
  count := by
    intro j hj hjk
    rcases Nat.lt_succ_iff_lt_or_eq.mp hjk with hlt | rfl
    · obtain ⟨m, hm, hcount⟩ := h.count j hj hlt
      exact ⟨m, hm, (Function.update_of_ne (by omega) _ _).trans hcount⟩
    · exact ⟨n, hn, (Function.update_self ..).trans hc⟩
  box := hbox

/-- The box of the places that were just compared -/
theorem IsRepeat.boxOk (h : IsRepeat rat N k n) (hk : 1 ≤ k) (hn : 0 < n) : BoxOk rat N k (n + k - 1) (k + 1) := by
  intro _
  have hlast := (h.same _ (Nat.sub_lt hn Nat.one_pos)).1
  refine ⟨hk, Nat.lt_succ_self k, by omega, ?_⟩
  rw [Nat.sub_add_cancel (by omega), Nat.add_sub_cancel]
  exact h.same

theorem BoxInv.turn [DecidableEq β] (h : BoxInv rat N L z k) (hk1 : 1 ≤ k) (hk : k < N) :
    BoxInv rat N L (turn rat N L z k) (k + 1) := by
  unfold DryScan.turn
  dsimp only
  split
  · next hout =>
    have hr : IsRepeat rat N k (repeatFrom rat k (N - k) 0) :=
      (repeatFrom_spec (by omega) fun i hi => absurd hi (Nat.not_lt_zero i)).1
    refine h.next hk hr rfl ?_
    split
    · next hpos =>
      rw [Nat.add_comm k]
      exact hr.boxOk hk1 hpos
    · exact fun hrt => absurd hrt (by omega)
  · next hin =>
    obtain ⟨hlt1, hltk, hrt, hbox⟩ := h.box (Nat.not_lt.mp hin)
    obtain ⟨n, hn, hcount⟩ := h.count (k - z.lt) (by omega) (by omega)
    have hpair : ∀ i, i + k ≤ z.rt → i + k < N ∧ rat (i + (k - z.lt)) = rat (i + k) := by
      intro i hi
      have hb := hbox (i + (k - z.lt)) (by omega)
      rwa [show i + (k - z.lt) + z.lt = i + k by omega] at hb
    -- what repeats at the pair index repeats here, as far as the box goes
    have hshift : ∀ m, m ≤ n → m ≤ z.rt + 1 - k → Matches rat N k m := fun m hmn hm i hi => by
      have hp := hpair i (by omega)
      exact ⟨hp.1, (hn.same i (by omega)).2.trans hp.2⟩
    have hrest (hle : z.rt + 1 - k ≤ n) := repeatFrom_spec (show z.rt + 1 - k + k + (N - (z.rt + 1)) = N by omega)
      (hshift _ hle (Nat.le_refl _))
    rw [hcount]
    split
    · next hshort =>
      have hr : ∃ m, IsRepeat rat N k m ∧ min (min n L) L = min m L := by
        rcases Nat.lt_or_ge n (z.rt + 1 - k) with hfew | hmany
        · refine ⟨n, ⟨hshift n (Nat.le_refl n) (Nat.le_of_lt hfew), fun _ heq => ?_⟩, by omega⟩
          have hp := hpair n (by omega)
          exact hn.ends (by omega) (heq.trans hp.2.symm)
        · -- the entry is clipped, and so is this one
          obtain ⟨hr, hle⟩ := hrest hmany
          exact ⟨_, hr, by omega⟩
      obtain ⟨m, hm, heq⟩ := hr
      exact h.next hk hm heq fun _ => ⟨hlt1, Nat.lt_succ_of_lt hltk, hrt, hbox⟩
    · next hlong =>
      obtain ⟨hr, hle⟩ := hrest (by omega)
      exact h.next hk hr rfl (hr.boxOk hk1 (by omega))

theorem repeatCount_spec [DecidableEq β] (hk1 : 1 ≤ k) (hk : k < N) :
    ∃ n, IsRepeat rat N k n ∧ repeatCount rat N L (N - 1 - k) = min n L := by
  have hinv : BoxInv rat N L ((List.range (N - 1)).foldl (fun z i => DryScan.turn rat N L z (i + 1)) {}) (N - 1 + 1) :=
    Loops.foldl_range_inv (I := fun i z => BoxInv rat N L z (i + 1))
      ⟨fun j hj hj1 => absurd hj (Nat.not_le_of_lt hj1), fun hrt => absurd hrt (Nat.not_succ_le_zero 0)⟩
      fun i hi z h => h.turn (Nat.succ_pos i) (by omega)
  exact hinv.count k hk1 (by omega)

end Box

/-! ## The largest repeat of a token -/

/-- The largest of some lengths, if there are any -/
def MaxIs (S : Set Nat) : Option Nat → Prop
  | none => S = ∅
  | some v => IsGreatest S v

theorem maxIs_insert {S : Set Nat} {o : Option Nat} (h : MaxIs S o) (c : Nat) :
    MaxIs (insert c S) (some (max c (o.getD 0))) := by
  cases o with
  | none =>
    obtain rfl : S = ∅ := h
    simp [MaxIs]
  | some v => exact IsGreatest.insert c h

theorem record_apply [DecidableEq β] (allowed : Int) (m : β → Option Nat) (token t : β) (c : Nat) :
    record allowed m token c t = if token = t ∧ allowed ≤ c then some (max c ((m t).getD 0)) else m t := by
  unfold record
  by_cases ht : token = t
  · subst ht
    by_cases hc : allowed ≤ c
    · cases hm : m token with
      | none => simp [hc]
      | some v =>
        simp only [hc, Option.all_some, decide_eq_true_eq, true_and, if_true, Option.getD_some]
        split
        · next hlt => rw [Function.update_self, Nat.max_eq_left (Nat.le_of_lt hlt)]
        · next hge => rw [hm, Nat.max_eq_right (Nat.not_lt.mp hge)]
    · simp [hc]
  · split <;> simp [ht, Function.update_of_ne (Ne.symm ht)]

theorem maxTokenRepeat_spec [DecidableEq β] (rat : Nat → β) (N : Nat) (count : Nat → Nat) (allowed : Int) (t : β) :
    MaxIs {c | ∃ i < N - 1, rat (N - 2 - i) = t ∧ allowed ≤ c ∧ c = count i} (maxTokenRepeat rat N count allowed t) := by
  unfold maxTokenRepeat
  generalize N - 1 = m
  induction m with
  | zero => exact Set.eq_empty_of_forall_notMem fun c ⟨i, hi, _⟩ => Nat.not_lt_zero i hi
  | succ m ih =>
    rw [range_succ, foldl_append, foldl_cons, foldl_nil, record_apply]
    split
    · next hnew =>
      convert maxIs_insert ih (count m) using 1
      ext c
      simp only [Set.mem_ofPred_eq, Set.mem_insert_iff, Nat.lt_succ_iff_lt_or_eq]
      grind
    · next hold =>
      convert ih using 2
      ext c
      simp only [Nat.lt_succ_iff_lt_or_eq]
      grind

/-! ## The scan -/

theorem lastTokens_holds {capacity : Nat} (hcap : 0 < capacity) (history : List Int) :
    ∃ r, lastTokens capacity history = some r ∧ r.Holds capacity (RingBuffer.window capacity history) := by
  induction history using reverseRecOn with
  | nil =>
    rw [show RingBuffer.window capacity ([] : List Int) = [] from drop_nil]
    exact ⟨_, rfl, rfl, rfl, Nat.zero_le _, hcap, (Nat.zero_mod _).symm, fun i v hi => nomatch hi⟩
  | append_singleton history token ih =>
    obtain ⟨r, hr, h⟩ := ih
    obtain ⟨r', hr', h'⟩ := h.pushBack hcap token
    refine ⟨r', ?_, ?_⟩
    · rw [lastTokens] at hr ⊢
      rw [foldlM_append, hr]
      exact (bind_pure _).trans hr'
    · rwa [RingBuffer.window_concat]

/-- In every window nothing is read beyond it, a count is the length that the reversed window and the one that is
shifted have in common, or the limit, and the entry of a token is the largest of the allowed counts that it follows. -/
theorem scan_eq {capacity : Nat} (hcap : 0 < capacity) (history : List Int) {lastNRepeat : Nat}
    (hn : lastNRepeat ≤ min capacity history.length) (repLimit : Nat) (dryAllowedLength : Int) :
    ∃ r, lastTokens capacity history = some r ∧
      let w := history.reverse.take lastNRepeat
      let rat := fun i => (r.rat i).getD 0
      let count := repeatCount rat lastNRepeat repLimit
      (∀ i < lastNRepeat, (r.rat i).isSome = true) ∧
      (∀ k, 1 ≤ k → k < lastNRepeat → count (lastNRepeat - 1 - k) = min repLimit (lcp w (w.drop k))) ∧
      ∀ t, MaxIs {c | ∃ i < lastNRepeat - 1, w[lastNRepeat - 2 - i]? = some t ∧ dryAllowedLength ≤ c ∧ c = count i}
        (maxTokenRepeat rat lastNRepeat count dryAllowedLength t) := by
  obtain ⟨r, hr, h⟩ := lastTokens_holds hcap history
  refine ⟨r, hr, ?_⟩
  intro w rat count
  have hlen : w.length = lastNRepeat := by
    rw [length_take, length_reverse]
    omega
  have hrat : ∀ i < lastNRepeat, r.rat i = some (rat i) ∧ w[i]? = some (rat i) := by
    intro i hi
    have hw : r.rat i = w[i]? := by
      rw [h.rat, RingBuffer.window, reverse_drop, getElem?_take_of_lt (by omega), getElem?_take_of_lt hi]
    have hsome : r.rat i = some (rat i) := by
      show r.rat i = some ((r.rat i).getD 0)
      rw [hw, getElem?_eq_getElem (hlen ▸ hi)]
      rfl
    exact ⟨hsome, hw.symm.trans hsome⟩
  refine ⟨fun i hi => by rw [(hrat i hi).1]; rfl, fun k hk1 hk => ?_, fun t => ?_⟩
  · obtain ⟨n, hrep, heq⟩ := @repeatCount_spec _ rat lastNRepeat repLimit k _ hk1 hk
    refine heq.trans ?_
    rw [Nat.min_comm, lcp_eq]
    · intro i hi
      obtain ⟨hlt, hsame⟩ := hrep.same i hi
      refine ⟨rat i, (hrat i (by omega)).2, ?_⟩
      rw [getElem?_drop, Nat.add_comm, (hrat _ hlt).2, hsame]
    · rintro ⟨v, hv, hv'⟩
      rw [getElem?_drop, Nat.add_comm] at hv'
      have hlt : n + k < lastNRepeat := hlen ▸ (List.getElem?_eq_some_iff.mp hv').1
      rw [(hrat _ hlt).2] at hv'
      rw [(hrat n (by omega)).2] at hv
      exact hrep.ends hlt (Option.some.inj (hv.trans hv'.symm))
  · convert maxTokenRepeat_spec rat lastNRepeat count dryAllowedLength t using 5
    next i =>
      refine and_congr_right fun hi => ?_
      rw [(hrat _ (by omega)).2, Option.some_inj]

/-- The example of the source, with a limit of two: `a b c c b c y a b c` -/
theorem scan_eq_example : ∃ r, lastTokens 16 [1, 2, 3, 3, 2, 3, 4, 1, 2, 3] = some r ∧
    repeatCount (fun i => (r.rat i).getD 0) 10 2 2 = 2 := by
  obtain ⟨r, hr, -, hcount, -⟩ := @scan_eq 16 (by decide) [1, 2, 3, 3, 2, 3, 4, 1, 2, 3] 10 (by decide) 2 2
  exact ⟨r, hr, hcount 7 (by decide) (by decide)⟩

end LlamaCpp.DryScan
