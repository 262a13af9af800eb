import LlamaCpp.Lib.Search
import Mathlib.Data.Nat.Find

/-!
# The invocation of an aLoRA

The scan of `launch_slot_with_task` (server-context.cpp) for the last place of the invocation tokens
in the prompt.  It goes backwards.  Where an attempt fails, the token at which it fails is not tried
as the end of a new one, so an invocation that ends there is passed over.  Exactly those are lost
(`findsLast_iff`).
-/

namespace LlamaCpp.AloraScan

open List Search

/-- The loop, with `i` tokens in front of it. -/
def scan (tokens invocationTokens : List Int) : Nat → Nat → Nat
  | 0, _ => tokens.length
  | i + 1, matchIdx =>
    if tokens[i]? = invocationTokens[matchIdx]? then
      if matchIdx = 0 then i else scan tokens invocationTokens i (matchIdx - 1)
    else scan tokens invocationTokens i (invocationTokens.length - 1)

/-- `alora_invocation_start`; the size of the prompt disables the adapter. -/
def aloraInvocationStart (tokens invocationTokens : List Int) : Nat :=
  scan tokens invocationTokens tokens.length (invocationTokens.length - 1)

/-- What fails from the end of a text on: each attempt matches a proper end of `w`, and the token in front does not go
on with it. -/
inductive Restarts (w : List Int) : List Int → Prop
  | nil : Restarts w []
  | miss {c : Int} {x u : List Int} (hx : x <:+ w) (hne : x ≠ w) (hmiss : ¬c :: x <:+ w) (h : Restarts w u) :
      Restarts w (c :: (x ++ u))

variable {w v x y u tokens : List Int} {c : Int} {i : Nat}

theorem getElem?_middle (hi : i = v.length) : (v ++ c :: u)[i]? = some c := by
  rw [hi, getElem?_append_right (Nat.le_refl _), Nat.sub_self, getElem?_cons_zero]

/-- An attempt goes through what matches. -/
theorem scan_match (hw : w = y ++ x) (hy : y ≠ []) :
    scan (v ++ (x ++ u)) w (v.length + x.length) (w.length - 1) = scan (v ++ (x ++ u)) w v.length (y.length - 1) := by
  induction x generalizing v y with
  | nil => rw [hw, append_nil, length_nil, Nat.add_zero]
  | cons c x ih =>
    have hpos := length_pos_iff.mpr hy
    have hih := ih (v := v ++ [c]) (y := y ++ [c]) (by rw [hw, append_assoc, singleton_append]) (by simp)
    rw [append_assoc, singleton_append, length_append, length_append, length_singleton, Nat.add_sub_cancel] at hih
    rw [cons_append, length_cons, Nat.add_comm x.length, ← Nat.add_assoc, hih, scan, getElem?_middle rfl, hw,
      getElem?_middle rfl, if_pos rfl, if_neg hpos.ne']

/-- An attempt that fails starts over in v of the token at which it fails. -/
theorem scan_miss (hw : w = y ++ x) (hy : y ≠ []) (hmiss : ¬c :: x <:+ w) :
    scan (v ++ c :: u) w (v.length + 1) (y.length - 1) = scan (v ++ c :: u) w v.length (w.length - 1) := by
  obtain ⟨y, d, rfl⟩ := (eq_nil_or_concat' y).resolve_left hy
  rw [append_assoc, singleton_append] at hw
  rw [length_append, length_singleton, Nat.add_sub_cancel, scan, getElem?_middle rfl, hw, getElem?_middle rfl, ← hw,
    if_neg]
  intro hcd
  exact hmiss ⟨y, by rw [hw, Option.some.inj hcd]⟩

theorem scan_restarts (h : Restarts w u) (front : List Int) :
    aloraInvocationStart (front ++ u) w = scan (front ++ u) w front.length (w.length - 1) := by
  unfold aloraInvocationStart
  induction h generalizing front with
  | nil => rw [append_nil]
  | @miss c x u hx hne hmiss h ih =>
    obtain ⟨y, hw⟩ := hx
    have hy : y ≠ [] := by
      rintro rfl
      exact hne hw
    have hih := ih (front ++ c :: x)
    have hgo := scan_match (v := front ++ [c]) (u := u) hw.symm hy
    rw [append_assoc, singleton_append, length_append, length_singleton] at hgo
    have hlen : (front ++ c :: x).length = front.length + 1 + x.length := by
      rw [length_append, length_cons, Nat.add_comm x.length, Nat.add_assoc]
    rw [hlen, append_assoc, cons_append] at hih
    rw [hih, hgo, scan_miss hw.symm hy hmiss]

/-- The scan finds nothing, or an occurrence behind which everything failed. -/
theorem scan_sound (hw : w = y ++ x) (hy : y ≠ []) (h : Restarts w u) (htokens : tokens = v ++ (x ++ u)) :
    scan tokens w v.length (y.length - 1) = tokens.length ∨
      ∃ f u', tokens = f ++ (w ++ u') ∧ Restarts w u' ∧ scan tokens w v.length (y.length - 1) = f.length := by
  induction v using reverseRecOn generalizing x y u with
  | nil => exact .inl rfl
  | append_singleton v c ih =>
    obtain ⟨y, d, rfl⟩ := (eq_nil_or_concat' y).resolve_left hy
    rw [append_assoc, singleton_append] at hw htokens
    have htoken : tokens[v.length]? = some c := htokens ▸ getElem?_middle rfl
    have hnext : w[y.length]? = some d := hw ▸ getElem?_middle rfl
    rw [length_append, length_append, length_singleton, length_singleton, Nat.add_sub_cancel, scan, htoken, hnext]
    by_cases hcd : c = d
    · subst hcd
      rw [if_pos rfl]
      by_cases hnil : y = []
      · subst hnil
        rw [length_nil, if_pos rfl]
        exact .inr ⟨v, u, by rw [htokens, hw]; rfl, h, rfl⟩
      · rw [if_neg (length_pos_iff.mpr hnil).ne']
        exact ih hw hnil h htokens
    · rw [if_neg fun heq => hcd (Option.some.inj heq)]
      have hmiss : ¬c :: x <:+ w := by
        rintro ⟨z, hz⟩
        have hlast := (append_inj' (hz.trans hw) rfl).2
        exact hcd (cons.inj hlast).1
      have hne : x ≠ w := by
        rintro rfl
        have hlen := congrArg length hw
        rw [length_append, length_cons] at hlen
        omega
      have hxw : x <:+ w := ⟨y ++ [d], by rw [hw, append_assoc, singleton_append]⟩
      exact ih (append_nil w).symm (by rintro rfl; simp at hw) (.miss hxw hne hmiss h) htokens

theorem occursAt_iff : OccursAt w tokens i ↔ ∃ front u, tokens = front ++ (w ++ u) ∧ front.length = i := by
  constructor
  · rintro ⟨hle, u, hu⟩
    exact ⟨tokens.take i, u, by rw [hu, take_append_drop], by rw [length_take, Nat.min_eq_left hle]⟩
  · rintro ⟨front, u, rfl, rfl⟩
    exact ⟨length_append ▸ Nat.le_add_right _ _, u, (drop_left ..).symm⟩

/-- The start is the last place of the invocation, or the size of the prompt if there is none. -/
def FindsLast (tokens w : List Int) : Prop :=
  (∀ i, OccursAt w tokens i → i ≤ aloraInvocationStart tokens w) ∧
    (OccursAt w tokens (aloraInvocationStart tokens w) ∨
      aloraInvocationStart tokens w = tokens.length ∧ ∀ i, ¬OccursAt w tokens i)

/-- The scan finds the last invocation if and only if everything behind it fails. -/
theorem findsLast_iff (hw : w ≠ []) : FindsLast tokens w ↔
    ∀ front u, tokens = front ++ (w ++ u) → (∀ i, OccursAt w tokens i → i ≤ front.length) → Restarts w u := by
  have hpos := length_pos_iff.mpr hw
  have hsound := scan_sound (append_nil w).symm hw .nil (append_nil tokens).symm
  constructor
  · rintro ⟨hlast, hfound⟩ front u htokens hmax
    have hoccurs := occursAt_iff.mpr ⟨front, u, htokens, rfl⟩
    have hstart : aloraInvocationStart tokens w = front.length := by
      rcases hfound with hfound | ⟨-, hnone⟩
      · exact Nat.le_antisymm (hmax _ hfound) (hlast _ hoccurs)
      · exact absurd hoccurs (hnone _)
    rcases hsound with hsize | ⟨f, u', htokens', hu', hf⟩
    · have hend := hoccurs.end_le
      have hsize : aloraInvocationStart tokens w = tokens.length := hsize
      omega
    · have hlen : f.length = front.length := hf.symm.trans hstart
      obtain ⟨-, hrest⟩ := append_inj (htokens'.symm.trans htokens) hlen
      exact append_cancel_left hrest ▸ hu'
  · intro hfails
    by_cases hocc : ∃ i, OccursAt w tokens i
    · obtain ⟨i, hi⟩ := hocc
      have hspec := Nat.findGreatest_spec (P := OccursAt w tokens) hi.1 hi
      have hmax : ∀ j, OccursAt w tokens j → j ≤ Nat.findGreatest (OccursAt w tokens) tokens.length := fun j hj =>
        Nat.le_findGreatest hj.1 hj
      obtain ⟨front, u, htokens, hfront⟩ := occursAt_iff.mp hspec
      rw [← hfront] at hspec hmax
      have hu := hfails front u htokens hmax
      -- the occurrence is an attempt of its own
      obtain ⟨d, x, rfl⟩ := exists_cons_of_ne_nil hw
      have hrun := scan_restarts hu (front ++ d :: x)
      have hgo := scan_match (v := front ++ [d]) (w := d :: x) (y := [d]) (x := x) (u := u) rfl (cons_ne_nil d [])
      have hlen : (front ++ d :: x).length = (front ++ [d]).length + x.length := by
        rw [length_append, length_append, length_singleton, length_cons, Nat.add_comm x.length, Nat.add_assoc]
      rw [append_assoc, singleton_append, ← cons_append] at hgo
      rw [append_assoc, hlen, hgo, length_append, length_singleton, Nat.sub_self, scan, cons_append,
        getElem?_middle rfl, getElem?_cons_zero, if_pos rfl, if_pos rfl, ← cons_append, ← htokens] at hrun
      exact ⟨fun j hj => hrun ▸ hmax j hj, .inl (hrun ▸ hspec)⟩
    · have hnone : ∀ i, ¬OccursAt w tokens i := not_exists.mp hocc
      rcases hsound with hsize | ⟨f, u', htokens', -, -⟩
      · exact ⟨fun i hi => absurd hi (hnone i), .inr ⟨hsize, hnone⟩⟩
      · exact absurd (occursAt_iff.mpr ⟨f, u', htokens', rfl⟩) (hnone _)

/-- The invocation at the end of the prompt -/
theorem findsLast_end : FindsLast [5, 1, 2] [1, 2] := by
  refine (findsLast_iff (by decide)).mpr fun front u htokens hmax => ?_
  have hlen := congrArg length htokens
  have hle := hmax 1 (by decide)
  simp only [length_append, length_cons, length_nil] at hlen
  obtain rfl : u = [] := length_eq_zero_iff.mp (by omega)
  exact .nil

/-- The token at which the first attempt fails ends the invocation. -/
theorem not_findsLast_repeated : aloraInvocationStart [1, 2, 2] [1, 2] = 3 ∧ ¬FindsLast [1, 2, 2] [1, 2] := by
  refine ⟨rfl, fun h => ?_⟩
  rcases h.2 with hfound | ⟨-, hnone⟩
  · exact absurd hfound (by decide)
  · exact hnone 0 (by decide)

end LlamaCpp.AloraScan
