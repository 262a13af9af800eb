import Mathlib.Algebra.GroupWithZero.Nat
import Mathlib.Algebra.Ring.Int.Defs
import Mathlib.Data.List.Basic

/-!
# The tokens of a prompt

`server_tokens` of server-common.cpp: a list of tokens, in which the places of a media chunk hold
`LLAMA_TOKEN_NULL`, and a map from the first place of every media chunk to the chunk.

An operation returns, throws, fails an assertion (`aborted`) or does not end.  What an operation that
throws has changed by then stays.
-/

namespace LlamaCpp.Server

abbrev llamaTokenNull : Int := -1

/-- What is looked at of an image or an audio chunk. -/
structure MediaChunk where
  id : String
  nTokens : Nat
  nPos : Nat
deriving DecidableEq

inductive InputChunk where
  | text (tokens : List Int)
  | image (chunk : MediaChunk)
  | audio (chunk : MediaChunk)

/-- `std::map<size_t, mtmd::input_chunk_ptr>` -/
abbrev MediaMap := List (Nat × MediaChunk)

def MediaMap.assign (m : MediaMap) (idx : Nat) (chunk : MediaChunk) : MediaMap :=
  m.filter (·.1 < idx) ++ (idx, chunk) :: m.filter (idx < ·.1)

structure ServerTokens where
  hasMtmd : Bool := false
  mapIdxToMedia : MediaMap := []
  tokens : List Int := []
deriving DecidableEq

/-- How an operation ends. -/
inductive Outcome where
  | returned (s : ServerTokens)
  | threw (s : ServerTokens)
  | aborted
  | endless
deriving DecidableEq

/-- What there is after the operation. -/
def Outcome.after : Outcome → Option ServerTokens
  | .returned s | .threw s => some s
  | .aborted | .endless => none

namespace ServerTokens

variable (s : ServerTokens)

/-- The chunk that starts at an index. -/
def chunkAt (idx : Nat) : Option MediaChunk := s.mapIdxToMedia.lookup idx

/-- `push_back` of a token -/
def pushToken (tok : Int) : Outcome :=
  if tok = llamaTokenNull then .threw s else .returned { s with tokens := s.tokens ++ [tok] }

def pushAll (s : ServerTokens) : List Int → Outcome
  | [] => .returned s
  | tok :: toks =>
    match s.pushToken tok with
    | .returned s => pushAll s toks
    | outcome => outcome

/-- `push_back` of an image or an audio chunk -/
def pushMedia (chunk : MediaChunk) : Outcome :=
  if !s.hasMtmd then .aborted
  else .returned { s with
    tokens := s.tokens ++ List.replicate chunk.nTokens llamaTokenNull
    mapIdxToMedia := s.mapIdxToMedia.assign s.tokens.length chunk }

/-- `push_back` of a chunk -/
def pushChunk : InputChunk → Outcome
  | .text toks => s.pushAll toks
  | .image chunk | .audio chunk => s.pushMedia chunk

/-- `push_back` of another `server_tokens`.  The loop over the media map does not move its iterator. -/
def pushTokens (other : ServerTokens) : Outcome :=
  match s.pushAll other.tokens with
  | .returned s =>
    if other.hasMtmd then
      if !s.hasMtmd then .aborted
      else if other.mapIdxToMedia = [] then .returned s
      else .endless
    else .returned s
  | outcome => outcome

def insert (toks : List Int) : ServerTokens := { s with tokens := s.tokens ++ toks }

/-- Both neighbours of a cut are places of media. -/
def CutInMedia (n : Nat) : Prop :=
  0 < n ∧ s.tokens[n - 1]? = some llamaTokenNull ∧ s.tokens[n]? = some llamaTokenNull

instance (n : Nat) : Decidable (s.CutInMedia n) := inferInstanceAs (Decidable (_ ∧ _ ∧ _))

def keepFirst (n : Nat) : Outcome :=
  if s.tokens.length < n then .aborted
  else if s.hasMtmd then
    if n = s.tokens.length then .returned s
    else if s.CutInMedia n ∧ s.chunkAt (n - 1) = none then .threw s
    else .returned { s with
      mapIdxToMedia := s.mapIdxToMedia.filter (·.1 < n)
      tokens := s.tokens.take n }
  else .returned { s with tokens := s.tokens.take n }

def clear : ServerTokens := { s with mapIdxToMedia := [], tokens := [] }

def clone : ServerTokens where
  hasMtmd := s.hasMtmd
  mapIdxToMedia := s.mapIdxToMedia.map fun (idx, chunk) => (idx, chunk)
  tokens := s.tokens

end ServerTokens

def ServerTokens.ofTokens (tokens : List Int) (hasMtmd : Bool) : ServerTokens where
  hasMtmd := hasMtmd
  tokens := tokens

def ServerTokens.pushChunks (s : ServerTokens) : List InputChunk → Outcome
  | [] => .returned s
  | chunk :: chunks =>
    match s.pushChunk chunk with
    | .returned s => pushChunks s chunks
    | outcome => outcome

def ServerTokens.ofChunks (chunks : List InputChunk) (hasMtmd : Bool) : Outcome :=
  ServerTokens.pushChunks { hasMtmd := hasMtmd } chunks

/-! ## The common prefix -/

/-- The loop of `get_common_prefix` for tokens with media, from index `i` on; `none` if it throws or fails an
assertion.  Every iteration moves the index, so `maxIdx` iterations are enough. -/
def commonPrefixLoop (a b : ServerTokens) (maxIdx : Nat) : Nat → Nat → Option Nat
  | 0, _ => some maxIdx
  | fuel + 1, i =>
    if maxIdx ≤ i then some maxIdx
    else
      let ai := a.tokens.getD i 0
      let bi := b.tokens.getD i 0
      if ai = llamaTokenNull ∧ bi = llamaTokenNull then
        match a.chunkAt i, b.chunkAt i with
        | some ca, some cb =>
          if ca.id = cb.id ∧ ca.nTokens = cb.nTokens then
            if ca.nTokens = 0 then none else commonPrefixLoop a b maxIdx fuel (i + ca.nTokens)
          else some i
        | _, _ => none
      else if ai = bi then commonPrefixLoop a b maxIdx fuel (i + 1)
      else some i

/-- The loop of `get_common_prefix` for tokens without media. -/
def textPrefix : List Int → List Int → Nat
  | a :: as, b :: bs => if a = b then textPrefix as bs + 1 else 0
  | _, _ => 0

def ServerTokens.getCommonPrefix (a b : ServerTokens) : Option Nat :=
  if !a.hasMtmd then some (textPrefix a.tokens b.tokens)
  else
    let maxIdx := min a.tokens.length b.tokens.length
    commonPrefixLoop a b maxIdx maxIdx 0

/-! ## Positions -/

/-- The loop of `pos_next` from place `idx` and position `pos` on; `none` if it does not end.  Every iteration moves
the place, so `n` iterations are enough. -/
def posNextLoop (s : ServerTokens) (n : Nat) : Nat → Nat → Nat → Option Nat
  | 0, _, pos => some pos
  | fuel + 1, idx, pos =>
    if n ≤ idx then some pos
    else
      match s.chunkAt idx with
      | some chunk => if chunk.nTokens = 0 then none else posNextLoop s n fuel (idx + chunk.nTokens) (pos + chunk.nPos)
      | none => posNextLoop s n fuel (idx + 1) (pos + 1)

/-- `pos_next` of the first `n` tokens; `none` if it fails its assertion or does not end. -/
def ServerTokens.posNext (s : ServerTokens) (n : Nat) : Option Nat :=
  if !s.hasMtmd then some n else if s.tokens.length < n then none else posNextLoop s n n 0 0

/-- `pos_next` of all tokens. -/
def ServerTokens.posNextAll (s : ServerTokens) : Int :=
  if !s.hasMtmd then s.tokens.length
  else s.tokens.length + (s.mapIdxToMedia.map fun e => (e.2.nPos : Int) - e.2.nTokens).sum

/-- The loop of `size_up_to_pos` from place `idx` and position `pos` on; `none` if it does not end. -/
def sizeUpToPosLoop (s : ServerTokens) (maxPos : Int) : Nat → Nat → Nat → Option Nat
  | 0, idx, _ => some idx
  | fuel + 1, idx, pos =>
    if s.tokens.length ≤ idx then some idx
    else
      let (nTokens, nPos) := match s.chunkAt idx with
        | some chunk => (chunk.nTokens, chunk.nPos)
        | none => (1, 1)
      if maxPos ≤ ((pos + nPos : Nat) : Int) then some (idx + nTokens)
      else if nTokens = 0 then none
      else sizeUpToPosLoop s maxPos fuel (idx + nTokens) (pos + nPos)

/-- `size_up_to_pos`; without media a negative position becomes a large size. -/
def ServerTokens.sizeUpToPos (s : ServerTokens) (maxPos : Int) : Option Nat :=
  if !s.hasMtmd then some (if maxPos < 0 then s.tokens.length else min maxPos.toNat s.tokens.length)
  else sizeUpToPosLoop s maxPos s.tokens.length 0 0

/-- `set_token`, which is for tokens without media only. -/
def ServerTokens.setToken (s : ServerTokens) (pos : Nat) (tok : Int) : ServerTokens := { s with tokens := s.tokens.set pos tok }

/-! ## Lookups -/

theorem lookup_filter (p : Nat → Bool) (m : MediaMap) (idx : Nat) :
    List.lookup idx (m.filter fun e => p e.1) = if p idx then m.lookup idx else none := by
  induction m with
  | nil => simp
  | cons e m ih =>
    obtain ⟨k, chunk⟩ := e
    rw [List.filter_cons, List.lookup_cons]
    cases hkey : idx == k with
    | true =>
      obtain rfl := eq_of_beq hkey
      cases hp : p idx <;> simp [hp, ih]
    | false => cases hp : p k <;> simp [List.lookup_cons, hkey, ih]

theorem lookup_assign (m : MediaMap) (k : Nat) (chunk : MediaChunk) (idx : Nat) :
    List.lookup idx (m.assign k chunk) = if idx = k then some chunk else m.lookup idx := by
  unfold MediaMap.assign
  rw [List.lookup_append, lookup_filter (fun i => decide (i < k)), List.lookup_cons,
    lookup_filter (fun i => decide (k < i))]
  rcases Nat.lt_trichotomy idx k with hlt | rfl | hgt
  · have hne : idx ≠ k := Nat.ne_of_lt hlt
    simp [beq_false_of_ne hne, hlt, hne, Nat.not_lt.mpr (Nat.le_of_lt hlt)]
  · simp
  · have hne : idx ≠ k := Nat.ne_of_gt hgt
    simp [beq_false_of_ne hne, hgt, hne, Nat.not_lt.mpr (Nat.le_of_lt hgt)]

end LlamaCpp.Server
