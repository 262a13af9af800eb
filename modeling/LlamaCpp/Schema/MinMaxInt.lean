import LlamaCpp.Lib.Decimal
import LlamaCpp.Schema.Repetition

/-!
# The rule of a bounded integer

`build_min_max_int` of json-schema-to-grammar.cpp.  The least and the greatest value of the type
stand for absent bounds.  Two bounds of one length are followed digit by digit
(`uniform_range`); a single bound is followed digit by digit as well, and what is behind the
first digit is turned into an integer for that.
-/

namespace LlamaCpp.MinMaxInt

open Decimal

/-- `std::numeric_limits<int64_t>::min()` -/
def int64Min : Int := -2 ^ 63

/-- `std::numeric_limits<int64_t>::max()` -/
def int64Max : Int := 2 ^ 63 - 1

/-- `c + 1` -/
def nextChar (c : Char) : Char := Char.ofNat (c.toNat + 1)

/-- `c - 1` -/
def prevChar (c : Char) : Char := Char.ofNat (c.toNat - 1)

def digitRange (fromChar toChar : Char) : List Char :=
  if fromChar = toChar then ['[', fromChar, ']'] else ['[', fromChar, '-', toChar, ']']

def moreDigits (minDigits maxDigits : Nat) : List Char :=
  "[0-9]".toList ++
    if minDigits = maxDigits ∧ minDigits = 1 then []
    else
      '{' :: Nat.toDigits 10 minDigits ++
        (if maxDigits ≠ minDigits then
          ',' :: (if maxDigits ≠ intMax then Nat.toDigits 10 maxDigits else [])
        else []) ++ ['}']

/-- The number of characters before the first difference. -/
def commonLen : List Char → List Char → Nat
  | a :: as, b :: bs => if a = b then commonLen as bs + 1 else 0
  | _, _ => 0

def uniformRange (fromDigits toDigits : List Char) : List Char :=
  let i := commonLen fromDigits toDigits
  (if 0 < i then '"' :: fromDigits.take i ++ ['"'] else []) ++
    if h : i < fromDigits.length ∧ i < toDigits.length then
      let a := fromDigits[i]
      let b := toDigits[i]
      let subLen := fromDigits.length - i - 1
      let fromSub := fromDigits.drop (i + 1)
      let toSub := toDigits.drop (i + 1)
      (if 0 < i then [' '] else []) ++
        if 0 < subLen then
          '(' ::
            (if fromSub = zeros subLen then digitRange a (prevChar b) ++ ' ' :: moreDigits subLen subLen
              else
                '[' :: a :: "] (".toList ++ uniformRange fromSub (nines subLen) ++ ")".toList ++
                  if a < prevChar b then
                    " | ".toList ++
                      (if toSub = nines subLen then digitRange (nextChar a) b
                        else digitRange (nextChar a) (prevChar b)) ++
                      ' ' :: moreDigits subLen subLen
                  else []) ++
            (if fromSub ≠ zeros subLen ∧ a < prevChar b ∧ toSub = nines subLen then []
              else " | ".toList ++ digitRange b b ++ ' ' :: uniformRange (zeros subLen) toSub) ++ [')']
        else ['[', a, '-', b, ']']
    else []
termination_by fromDigits.length
decreasing_by
  · simp only [List.length_drop]
    omega
  · simp only [zeros, List.length_replicate]
    omega

/-- The loop over the numbers of digits from that of the lower bound on; `longer` are left. -/
def rangesFrom : Nat → List Char → List Char → List Char
  | 0, minS, maxS => uniformRange minS maxS
  | longer + 1, minS, maxS =>
    uniformRange minS (nines minS.length) ++ " | ".toList ++
      rangesFrom longer ('1' :: zeros minS.length) maxS

/-- Two bounds that are not negative. -/
def rangeText (minValue maxValue : Nat) : List Char :=
  let minS := Nat.toDigits 10 minValue
  let maxS := Nat.toDigits 10 maxValue
  rangesFrom (maxS.length - minS.length) minS maxS

/-- How far the calls inside of each other may still go. -/
def rank (minValue maxValue : Int) : Nat :=
  if minValue = int64Min then (if maxValue = int64Max then 0 else 2)
  else if maxValue = int64Max then (if minValue < 0 then 3 else 1)
  else if minValue < 0 then 2
  else 0

variable {maxValue minValue : Int}

theorem rank_le_one (h : 0 ≤ minValue) : rank minValue maxValue ≤ 1 := by
  unfold rank
  have hne : minValue ≠ int64Min := by
    unfold int64Min
    omega
  rw [if_neg hne, if_neg h.not_gt, if_neg h.not_gt]
  split
  · exact le_rfl
  · exact Nat.zero_le 1

theorem rank_negative (hmin : minValue ≠ int64Min) (h : minValue < 0) : 1 < rank minValue maxValue := by
  unfold rank
  rw [if_neg hmin, if_pos h, if_pos h]
  split
  · decide
  · decide

theorem rank_unbounded (hmin : minValue ≠ int64Min) (h : minValue < 0) (maxValue : Int) :
    rank int64Min maxValue < rank minValue int64Max := by
  unfold rank
  rw [if_pos rfl, if_neg hmin, if_pos rfl, if_pos h]
  split
  · decide
  · decide

theorem rank_below (h : maxValue ≠ int64Max) : 1 < rank int64Min maxValue := by
  unfold rank
  rw [if_pos rfl, if_neg h]
  decide

theorem value_tail_lt {n : Nat} {c : Char} {rest : List Char} (hn : 10 ≤ n)
    (h : Nat.toDigits 10 n = c :: rest) : value rest < n := by
  have hcanonical := canonical_toDigits n
  have hvalue := value_toDigits n
  rw [h] at hcanonical hvalue
  have hpos : 0 < rest.length := by
    refine List.length_pos_of_ne_nil fun hnil => ?_
    have hlt := value_lt hcanonical.digits
    rw [hvalue, hnil] at hlt
    exact absurd hlt (by simpa using hn)
  obtain ⟨k, hk⟩ := Nat.exists_eq_succ_of_ne_zero hpos.ne'
  have hpow := pow_le_value hcanonical (n := k) (by simp [hk])
  have hlt := value_lt (allDigits_cons.mp hcanonical.digits).2
  rw [hk] at hlt
  rw [hvalue] at hpow
  exact hlt.trans_le hpow

/-- `build_min_max_int`; the negative of the least value is no value. -/
def buildMinMaxInt (minValue maxValue : Int) (decimalsLeft : Nat) (topLevel : Bool) : Option (List Char) :=
  let lessDecimals := max (decimalsLeft - 1) 1
  if minValue ≠ int64Min ∧ maxValue ≠ int64Max then
    if minValue < 0 ∧ maxValue < 0 then
      (buildMinMaxInt (-maxValue) (-minValue) decimalsLeft true).map fun inner =>
        "\"-\" (".toList ++ inner ++ ")".toList
    else if minValue < 0 then
      (buildMinMaxInt 0 (-minValue) decimalsLeft true).map fun inner =>
        "\"-\" (".toList ++ inner ++ ") | ".toList ++ rangeText 0 maxValue.toNat
    else some (rangeText minValue.toNat maxValue.toNat)
  else if minValue ≠ int64Min then
    if minValue < 0 then
      (buildMinMaxInt int64Min (-minValue) decimalsLeft false).map fun inner =>
        "\"-\" (".toList ++ inner ++ ") | [0] | [1-9] ".toList ++ moreDigits 0 (decimalsLeft - 1)
    else if minValue = 0 then
      some (if topLevel then "[0] | [1-9] ".toList ++ moreDigits 0 lessDecimals
        else moreDigits 1 decimalsLeft)
    else if minValue ≤ 9 then
      let c := Char.ofNat ('0'.toNat + minValue.toNat)
      let rangeStart := if topLevel then '1' else '0'
      some ((if rangeStart < c then
          digitRange rangeStart (prevChar c) ++ ' ' :: moreDigits 1 lessDecimals ++ " | ".toList
        else []) ++ digitRange c '9' ++ ' ' :: moreDigits 0 lessDecimals)
    else
      match _hdigits : Nat.toDigits 10 minValue.toNat with
      | [] => none
      | c :: rest =>
        (buildMinMaxInt (value rest) int64Max lessDecimals false).map fun inner =>
          (if '1' < c then
              digitRange (if topLevel then '1' else '0') (prevChar c) ++
                ' ' :: moreDigits (rest.length + 1) lessDecimals ++ " | ".toList
            else []) ++ digitRange c c ++ " (".toList ++ inner ++ ")".toList ++
            if c < '9' then
              " | ".toList ++ digitRange (nextChar c) '9' ++ ' ' :: moreDigits rest.length lessDecimals
            else []
  else if maxValue ≠ int64Max then
    if 0 ≤ maxValue then
      (buildMinMaxInt 0 maxValue decimalsLeft true).map fun inner =>
        (if topLevel then "\"-\" [1-9] ".toList ++ moreDigits 0 lessDecimals ++ " | ".toList else []) ++ inner
    else if maxValue = int64Min then none
    else
      (buildMinMaxInt (-maxValue) int64Max decimalsLeft false).map fun inner =>
        "\"-\" (".toList ++ inner ++ ")".toList
  else none
termination_by (rank minValue maxValue, minValue.toNat)
decreasing_by
  · next hbounds hneg =>
    exact .left _ _ ((rank_le_one (by omega)).trans_lt (rank_negative hbounds.1 hneg.1))
  · next hbounds _ hneg =>
    exact .left _ _ ((rank_le_one le_rfl).trans_lt (rank_negative hbounds.1 hneg))
  · next hnone hmin hneg =>
    have hmax : maxValue = int64Max := not_not.mp fun hmax => hnone ⟨hmin, hmax⟩
    exact .left _ _ (hmax ▸ rank_unbounded hmin hneg (-minValue))
  · next hnone hmin hneg _ hsmall =>
    have hmax : maxValue = int64Max := not_not.mp fun hmax => hnone ⟨hmin, hmax⟩
    have hrank : rank minValue maxValue = 1 := by
      rw [hmax, rank, if_neg hmin, if_pos rfl, if_neg hneg]
    have hless := value_tail_lt (by omega) _hdigits
    have hle : rank (value rest) int64Max ≤ 1 := rank_le_one (Int.natCast_nonneg (value rest))
    rcases hle.lt_or_eq with hlt | heq
    · exact .left _ _ (hrank ▸ hlt)
    · rw [heq, hrank]
      exact .right _ (by omega)
  · next hnone hmin hmax _ =>
    exact .left _ _ ((rank_le_one le_rfl).trans_lt (not_not.mp hmin ▸ rank_below hmax))
  · next hnone hmin hmax hneg _ =>
    exact .left _ _ ((rank_le_one (by omega)).trans_lt (not_not.mp hmin ▸ rank_below hmax))

end LlamaCpp.MinMaxInt
