import Mathlib.Data.Finmap
import Mathlib.Data.Finset.Max

/-!
# Counting maps

An ordered map from keys to integer counts, used as a multiset that can be asked
for its least and greatest key.  A key whose count drops to zero is erased, so the
least key of the map is the least key that occurs at all.

`Represents m f` says that `m` holds exactly the occurrences counted by
`f : K → Nat`, with no entry of count zero.  The two updates move `f` at one key
(`Represents.inc`, `Represents.dec`), a represented map is determined by `f`
(`Represents.ext`), and its extreme keys are the extreme points of the support
of `f` (`Represents.minKey?_eq_some`, `Represents.maxKey?_eq_some`).
-/

/-- A map from keys to counts. -/
abbrev CountMap (K : Type) := Finmap (fun _ : K => Int)

namespace CountMap

open Finset

variable {K : Type} [DecidableEq K]

/-! ## The two updates -/

/-- One more occurrence of `k`; a missing key counts as zero. -/
def inc (m : CountMap K) (k : K) : CountMap K := m.insert k ((m.lookup k).getD 0 + 1)

/-- One occurrence of `k` less; the entry goes when its count reaches zero. -/
def dec (m : CountMap K) (k : K) : CountMap K :=
  match m.lookup k with
  | none => m
  | some c => if c - 1 = 0 then m.erase k else m.insert k (c - 1)

@[simp] theorem lookup_inc_self (m : CountMap K) (k : K) : (inc m k).lookup k = some ((m.lookup k).getD 0 + 1) := by
  simp [inc]

theorem lookup_inc_of_ne (m : CountMap K) {k k' : K} (h : k' ≠ k) : (inc m k).lookup k' = m.lookup k' := by
  simp [inc, Finmap.lookup_insert_of_ne _ h]

theorem lookup_dec_self (m : CountMap K) (k : K) :
    (dec m k).lookup k = (m.lookup k).bind fun c => if c - 1 = 0 then none else some (c - 1) := by
  unfold dec
  cases hk : m.lookup k with
  | none => simpa using hk
  | some c =>
    by_cases hc : c - 1 = 0
    · simp [hc]
    · simp [hc]

theorem lookup_dec_of_ne (m : CountMap K) {k k' : K} (h : k' ≠ k) : (dec m k).lookup k' = m.lookup k' := by
  unfold dec
  cases m.lookup k with
  | none => rfl
  | some c =>
    by_cases hc : c - 1 = 0
    · simp [hc, Finmap.lookup_erase_ne h]
    · simp [hc, Finmap.lookup_insert_of_ne _ h]

/-! ## Extreme keys -/

section Order

variable {K : Type} [LinearOrder K]

def minKey? (m : CountMap K) : Option K := m.keys.min

def maxKey? (m : CountMap K) : Option K := m.keys.max

end Order

/-! ## The function a map represents -/

/-- `m` counts the occurrences `f`, and holds no entry of count zero. -/
def Represents (m : CountMap K) (f : K → Nat) : Prop :=
  ∀ k, m.lookup k = if f k = 0 then none else some (f k : Int)

theorem represents_empty : Represents (∅ : CountMap K) (fun _ => 0) := by
  intro k
  simp

namespace Represents

variable {m m' : CountMap K} {f g : K → Nat}

theorem congr (h : Represents m f) (hfg : ∀ k, f k = g k) : Represents m g := by
  intro k
  rw [h k, hfg k]

theorem ext (h : Represents m f) (h' : Represents m' f) : m = m' :=
  Finmap.ext_lookup fun k => (h k).trans (h' k).symm

theorem unique (h : Represents m f) (h' : Represents m g) (k : K) : f k = g k := by
  have hk := (h k).symm.trans (h' k)
  by_cases hf : f k = 0 <;> by_cases hg : g k = 0 <;> simp [hf, hg] at hk <;> omega

theorem inc (h : Represents m f) {k : K} (hk : g k = f k + 1) (ho : ∀ k' ≠ k, g k' = f k') :
    Represents (inc m k) g := by
  intro k'
  by_cases hkk : k' = k
  · subst hkk
    rw [lookup_inc_self, h k', hk]
    by_cases hf : f k' = 0 <;> simp [hf]
  · rw [lookup_inc_of_ne m hkk, h k', ho k' hkk]

theorem dec (h : Represents m f) {k : K} (hk : f k = g k + 1) (ho : ∀ k' ≠ k, g k' = f k') :
    Represents (dec m k) g := by
  intro k'
  by_cases hkk : k' = k
  · subst hkk
    rw [lookup_dec_self, h k', hk]
    by_cases hg : g k' = 0 <;> simp [hg]
  · rw [lookup_dec_of_ne m hkk, h k', ho k' hkk]

theorem mem_keys (h : Represents m f) (k : K) : k ∈ m.keys ↔ f k ≠ 0 := by
  rw [Finmap.mem_keys, ← Finmap.lookup_isSome, h k]
  by_cases hf : f k = 0 <;> simp [hf]

section Order

variable {K : Type} [LinearOrder K] {m : CountMap K} {f : K → Nat}

/-- The least key is the least point of the support. -/
theorem minKey?_eq_some (h : Represents m f) (k : K) : minKey? m = some k ↔ f k ≠ 0 ∧ ∀ k', f k' ≠ 0 → k ≤ k' := by
  constructor
  · intro hk
    have hmem : k ∈ m.keys := mem_of_min hk
    refine ⟨(h.mem_keys k).mp hmem, fun k' hk' => ?_⟩
    exact min_le_of_eq ((h.mem_keys k').mpr hk') hk
  · rintro ⟨hk, hmin⟩
    have hmem : k ∈ m.keys := (h.mem_keys k).mpr hk
    obtain ⟨a, ha⟩ := min_of_mem hmem
    have hak : a ≤ k := min_le_of_eq hmem ha
    have hka : k ≤ a := hmin a ((h.mem_keys a).mp (mem_of_min ha))
    rw [minKey?, ha, le_antisymm hka hak]
    rfl

/-- The greatest key is the greatest point of the support. -/
theorem maxKey?_eq_some (h : Represents m f) (k : K) : maxKey? m = some k ↔ f k ≠ 0 ∧ ∀ k', f k' ≠ 0 → k' ≤ k := by
  constructor
  · intro hk
    have hmem : k ∈ m.keys := mem_of_max hk
    refine ⟨(h.mem_keys k).mp hmem, fun k' hk' => ?_⟩
    exact le_max_of_eq ((h.mem_keys k').mpr hk') hk
  · rintro ⟨hk, hmax⟩
    have hmem : k ∈ m.keys := (h.mem_keys k).mpr hk
    obtain ⟨a, ha⟩ := max_of_mem hmem
    have hka : k ≤ a := le_max_of_eq hmem ha
    have hak : a ≤ k := hmax a ((h.mem_keys a).mp (mem_of_max ha))
    rw [maxKey?, ha, le_antisymm hak hka]
    rfl

theorem minKey?_eq_none (h : Represents m f) : minKey? m = none ↔ ∀ k, f k = 0 := by
  have hiff : minKey? m = none ↔ m.keys = ∅ := Finset.min_eq_top
  rw [hiff, eq_empty_iff_forall_notMem]
  simp only [h.mem_keys, ne_eq, not_not]

theorem maxKey?_eq_none (h : Represents m f) : maxKey? m = none ↔ ∀ k, f k = 0 := by
  have hiff : maxKey? m = none ↔ m.keys = ∅ := Finset.max_eq_bot
  rw [hiff, eq_empty_iff_forall_notMem]
  simp only [h.mem_keys, ne_eq, not_not]

end Order

end Represents

end CountMap
