import LlamaCpp.Lib.Scatter
import Mathlib.Algebra.Group.Nat.Defs
import Mathlib.Data.Int.Basic
import Mathlib.Order.Interval.Set.Defs

/-!
# Expert placement

An artifact says for every layer in which order its experts stand, and how many of them each
member owns: a member owns the positions behind those of the members before it.
`llama_expert_placement_load` checks an artifact against the model, and
`llama_expert_placement_create_tables` turns a placement into the tables of the members.

The JSON library is not part of the model.  `PlacementJson` is what the loader asks of a
document: a field is the value, or the text of the exception of the access.  A mask entry is
0 or 1.
-/

namespace LlamaCpp

def llamaExpertSlotSkip : Int := -1

/-- The sum of two `int32_t`. -/
def int32Add (a b : Int) : Int := (a + b).bmod (2 ^ 32)

/-- An access to a document: the value, or what the exception says. -/
abbrev JsonAccess (α : Type) : Type := Except String α

/-- An element of `perm` or of `counts_per_layer`: null, or what it is as a
`std::vector<int32_t>`. -/
abbrev PlacementEntry : Type := Option (JsonAccess (List Int))

structure PlacementJson where
  model : JsonAccess String
  nLayer : JsonAccess Nat
  nExpert : JsonAccess Nat
  memberShares : Option (JsonAccess (List Float))
  perm : JsonAccess (List (JsonAccess PlacementEntry))
  countsPerLayer : JsonAccess (List (JsonAccess PlacementEntry))

structure LlamaExpertPlacement where
  modelName : String
  nLayer : Nat
  nExpert : Nat
  /-- `perm[il][k]` is the expert at position `k`; empty where the layer is not placed. -/
  perm : List (List Int)
  memberShares : List Float
  /-- The number of experts of each member. -/
  counts : List (List Int)

def LlamaExpertPlacement.layerPlaced (pl : LlamaExpertPlacement) (il : Nat) : Bool :=
  il < pl.perm.length && !(pl.perm.getD il []).isEmpty

/-- How a call ends that does not return. -/
inductive PlacementFailure where
  | runtimeError (what : String)
  /-- `GGML_ASSERT` -/
  | abort

namespace ExpertPlacement

/-! ## Loading -/

inductive Thrown where
  | json (what : String)
  | runtimeError (what : String)

/-- `throw std::runtime_error` -/
def fail {α : Type} (what : String) : Except Thrown α := .error (.runtimeError what)

def access {α : Type} (x : JsonAccess α) : Except Thrown α := x.mapError .json

def checkPerm (il nExpert : Nat) : List Int → List Bool → Except Thrown Unit
  | [], _ => .ok ()
  | e :: perm, seen =>
    if e < 0 ∨ nExpert ≤ e ∨ seen.getD e.toNat false then
      fail s!"layer {il}: perm is not a bijection over [0,{nExpert}) (expert {e})"
    else checkPerm il nExpert perm (seen.set e.toNat true)

def sumCounts (il : Nat) : List Int → Nat → Int → Except Thrown Int
  | [], _, sum => .ok sum
  | n :: cnt, j, sum =>
    if n < 0 then fail s!"layer {il}: negative member count {n}"
    else if n = 0 then
      fail (s!"layer {il}: member {j} owns 0 experts - " ++
        "every member needs >= 1 expert per placed layer (v1 guard)")
    else sumCounts il cnt (j + 1) (sum + n)

/-- One layer; `none` if it is not placed. -/
def loadLayer (nExpert nMembers : Nat)
    (layer : (JsonAccess PlacementEntry × JsonAccess PlacementEntry) × Nat) :
    Except Thrown (Option (List Int × List Int)) := do
  let il := layer.2
  let jp ← access layer.1.1
  let jc ← access layer.1.2
  if jp.isNone ≠ jc.isNone then
    fail s!"layer {il}: perm and counts_per_layer must be null together"
  else
    match jp, jc with
    | some jp, some jc =>
      let perm ← access jp
      if perm.length ≠ nExpert then
        fail s!"layer {il}: perm has {perm.length} entries, want n_expert={nExpert}"
      else
        checkPerm il nExpert perm (List.replicate nExpert false)
        let cnt ← access jc
        if cnt.length ≠ nMembers then
          fail (s!"layer {il}: counts_per_layer has {cnt.length} entries, want n_members={nMembers} " ++
            "(artifact generated for a different member count?)")
        else
          let sum ← sumCounts il cnt 0 0
          if sum ≠ nExpert then
            fail s!"layer {il}: member counts sum to {sum}, want n_expert={nExpert}"
          else return some (perm, cnt)
    | _, _ => return none

/-- `member_shares`, which may be missing. -/
def sharesOf (j : PlacementJson) : Except Thrown (List Float) :=
  match j.memberShares with
  | none => pure []
  | some shares => access shares

/-- The loader behind the parser. -/
def loadJson (j : PlacementJson) (nLayer nExpert nMembers : Nat) :
    Except Thrown LlamaExpertPlacement := do
  let modelName ← access j.model
  let jLayer ← access j.nLayer
  let jExpert ← access j.nExpert
  if jLayer ≠ nLayer then fail s!"n_layer mismatch: artifact {jLayer}, model {nLayer}"
  else if jExpert ≠ nExpert then fail s!"n_expert mismatch: artifact {jExpert}, model {nExpert}"
  else
    let memberShares ← sharesOf j
    let jPerm ← access j.perm
    let jCnt ← access j.countsPerLayer
    if jPerm.length ≠ nLayer ∨ jCnt.length ≠ nLayer then
      fail (s!"perm/counts_per_layer must have n_layer={nLayer} entries " ++
        s!"(got {jPerm.length}/{jCnt.length})")
    else
      let layers ← (jPerm.zip jCnt).zipIdx.mapM (loadLayer nExpert nMembers)
      if layers.all Option.isNone then fail "no layer carries a placement (all perm entries null)"
      else
        return {
          modelName, nLayer, nExpert, memberShares
          perm := layers.map fun layer => (layer.map Prod.fst).getD []
          counts := layers.map fun layer => (layer.map Prod.snd).getD [] }

end ExpertPlacement

open ExpertPlacement in
/-- `llama_expert_placement_load`: `file` is `none` if it cannot be opened, and an error if it
cannot be parsed. -/
def llamaExpertPlacementLoad (path : String) (file : Option (JsonAccess PlacementJson))
    (nLayer nExpert nMembers : Nat) : Except PlacementFailure LlamaExpertPlacement :=
  match file with
  | none => .error (.runtimeError s!"expert placement: cannot open '{path}'")
  | some (.error what) =>
    .error (.runtimeError s!"expert placement: '{path}' is not valid JSON: {what}")
  | some (.ok j) =>
    (loadJson j nLayer nExpert nMembers).mapError fun
      | .json what => .runtimeError s!"expert placement: '{path}' malformed: {what}"
      | .runtimeError what => .runtimeError what

namespace ExpertPlacement

/-! ## The tables of a layer -/

/-- `perm[k]`, an index into the tables. -/
def permAt (perm : List Int) (k : Nat) : Nat := (perm.getD k 0).toNat

/-- The positions of a loop over an `int32_t`, from `lo` up to `hi`. -/
def positions (lo hi : Int) : List Nat := (List.range (hi - lo).toNat).map fun i : Nat => (lo + i).toNat

def firstPos (cnt : List Int) (j : Nat) : Int := (cnt.take j).foldl int32Add 0

/-- `remap_j` -/
def remapOf (perm cnt : List Int) (j : Nat) : List Int :=
  let first := firstPos cnt j
  scatter (permAt perm) (fun k => k - first) (positions first (int32Add first (cnt.getD j 0)))
    (List.replicate perm.length llamaExpertSlotSkip)

/-- `mask_j` -/
def maskOf (perm cnt : List Int) (j : Nat) : List Nat :=
  let first := firstPos cnt j
  scatter (permAt perm) (fun _ => 1) (positions first (int32Add first (cnt.getD j 0)))
    (List.replicate perm.length 0)

/-- One member of the ownership view: the position behind it, and the owners so far. -/
def viewStep (perm : List Int) (σ : Int × List Int) (member : Int × Nat) : Int × List Int :=
  (int32Add σ.1 member.1,
    scatter (permAt perm) (fun _ => (member.2 : Int)) (positions σ.1 (int32Add σ.1 member.1)) σ.2)

/-- `member_of`, the ownership view of the layer. -/
def memberOf (perm cnt : List Int) : List Int :=
  (cnt.zipIdx.foldl (viewStep perm) (0, List.replicate perm.length (-1))).2

/-! ## The audit -/

/-- One member of the audit's own view, which counts from the start of its range. -/
def auditStep (perm : List Int) (σ : Int × List Int) (member : Int × Nat) : Int × List Int :=
  (int32Add σ.1 member.1,
    scatter (fun k : Nat => permAt perm (int32Add σ.1 k).toNat) (fun _ => (member.2 : Int))
      (List.range member.1.toNat) σ.2)

/-- `member_of` of the audit. -/
def auditMemberOf (perm cnt : List Int) : List Int :=
  (cnt.zipIdx.foldl (auditStep perm) (0, List.replicate perm.length (-1))).2

/-- The checks of one expert; the number of experts that the member owns. -/
def auditExpert (il j : Nat) (cntJ : Int) (owners remap : List Int) (mask : List Nat) (nOwned e : Nat) :
    Except String Nat :=
  let owner := owners.getD e 0
  let slot := remap.getD e 0
  let owned : Bool := owner = j
  if owner < 0 then
    .error (s!"expert placement: layer {il}: expert {e} has no owning member " ++
      "(ownership is not a partition)")
  else if !owned && slot ≠ llamaExpertSlotSkip then
    .error (s!"expert placement: layer {il} member {j}: remap maps non-owned expert {e} " ++
      s!"to local slot {slot}, want the skip sentinel {llamaExpertSlotSkip}")
  else if owned && (slot < 0 || cntJ ≤ slot) then
    .error (s!"expert placement: layer {il} member {j}: owned expert {e} local slot {slot} " ++
      s!"outside [0,{cntJ})")
  else if mask.getD e 0 ≠ owned.toNat then
    .error (s!"expert placement: layer {il} member {j}: mask for expert {e} " ++
      s!"is {mask.getD e 0}.000000, want " ++ if owned then "1.0" else "0.0")
  else .ok (nOwned + owned.toNat)

def auditTables (il j : Nat) (perm cnt remap : List Int) (mask : List Nat) : Except String Unit := do
  let cntJ := cnt.getD j 0
  let owners := auditMemberOf perm cnt
  let nOwned ← (List.range perm.length).foldlM (auditExpert il j cntJ owners remap mask) 0
  if (nOwned : Int) ≠ cntJ then
    .error (s!"expert placement: layer {il}: member {j} owns {nOwned} experts, " ++
      s!"counts_per_layer says {cntJ} (ownership is not a partition)")

end ExpertPlacement

/-! ## Creating the tables -/

/-- The tables of a placed layer: one of each kind for every member, and the view of the
owners that the backend keeps. -/
structure LayerTables where
  remap : List (List Int)
  mask : List (List Nat)
  memberOf : List Int

open ExpertPlacement in
/-- The tables of a layer, each audited before it is uploaded. -/
def layerTables (il : Nat) (perm cnt : List Int) (nMembers : Nat) : Except String LayerTables := do
  let members ← (List.range nMembers).mapM fun j => do
    auditTables il j perm cnt (remapOf perm cnt j) (maskOf perm cnt j)
    return (remapOf perm cnt j, maskOf perm cnt j)
  return ⟨members.map Prod.fst, members.map Prod.snd, memberOf perm cnt⟩

/-- `llama_expert_placement_create_tables`, when the buffer can be allocated; `none` for a
layer that is not placed. -/
def llamaExpertPlacementCreateTables (pl : LlamaExpertPlacement) (nMembers : Nat) :
    Except PlacementFailure (List (Option LayerTables)) :=
  if (List.range pl.nLayer).all fun il => !pl.layerPlaced il then .error .abort
  else
    ((List.range pl.nLayer).mapM fun il =>
      if pl.layerPlaced il then
        some <$> layerTables il (pl.perm.getD il []) (pl.counts.getD il []) nMembers
      else pure none).mapError .runtimeError

end LlamaCpp
