import Mathlib.Algebra.Group.Nat.Defs
import Mathlib.Data.List.Perm.Basic

/-!
# The expert cache

`llama_moe_cache` keeps experts of a layer that live in host memory in slots of a pool on the device.  A table maps every
expert to its slot, another one to itself if it has none.  The main thread runs graphs and, in between, `step`, which
publishes finished uploads, evicts, and schedules uploads.  A worker copies the weights.

The two threads are interleaved at the places where they take the mutex, and the copies of the worker are single steps.
Slots and experts are numbers, and -1 is `none`.  What the observations are, which layers there are and how the budget is
split over them come from outside; counters that are only logged are left out.
-/

namespace LlamaCpp.MoeCache

open Function (update)

abbrev expertSlotSkip : Int := -1

abbrev uint16Max : Nat := 2 ^ 16 - 1

structure Job where
  layer : Nat
  expert : Nat
  slot : Nat
deriving DecidableEq

inductive SlotContent where
  | unwritten
  /-- A copy has started. -/
  | partly
  /-- The weights of an expert. -/
  | weights (expert : Nat)

structure Layer where
  nExpert : Nat
  nSlots : Nat
  /-- The bytes of an expert. -/
  slab : Nat
  slotExpert : Nat → Option Nat := fun _ => none
  expertSlot : Nat → Option Nat := fun _ => none
  slotLastUse : Nat → Nat := fun _ => 0
  slotHits : Nat → Nat := fun _ => 0
  slotInFlight : Nat → Bool := fun _ => false
  missCount : Nat → Nat := fun _ => 0
  expertPending : Nat → Bool := fun _ => false
  obs : List Int := []
  gpuTable : Nat → Int := fun _ => 0
  cpuTable : Nat → Int := fun _ => 0
  pool : Nat → SlotContent := fun _ => .unwritten

structure Params where
  maxBatch : Nat := 8
  inserts : Nat := 4
  /-- `step_mib`, in bytes -/
  stepCap : Nat := 384 * 1024 * 1024
  hotUses : Nat := 4
  staticFill : Nat := 0

/-! ## One layer -/

namespace Layer

variable (l : Layer)

def setResident (expert slot : Nat) : Layer :=
  let expertSlot := match l.slotExpert slot with
    | some old => update l.expertSlot old none
    | none => l.expertSlot
  { l with
    slotExpert := update l.slotExpert slot (some expert)
    expertSlot := update expertSlot expert (some slot) }

def fillSlot (expert slot : Nat) : Layer :=
  { l.setResident expert slot with pool := update l.pool slot (.weights expert) }

def flushTables : Layer :=
  { l with
    gpuTable := fun e => match l.expertSlot e with
      | some s => s
      | none => expertSlotSkip
    cpuTable := fun e => match l.expertSlot e with
      | some _ => expertSlotSkip
      | none => e }

/-- A finished upload is published. -/
def publish (clock expert slot : Nat) : Layer :=
  { l.setResident expert slot with
    slotInFlight := update l.slotInFlight slot false
    expertPending := update l.expertPending expert false
    slotLastUse := update l.slotLastUse slot clock
    slotHits := update l.slotHits slot 0
    missCount := update l.missCount expert 0 }

/-- What is read off the observations: the layer, the missing experts that can be uploaded, and the slots that were hit. -/
structure Observed where
  layer : Layer
  cand : List Nat := []
  hits : List Nat := []

def observeOne (clock : Nat) (o : Observed) (e : Int) : Observed :=
  if e < 0 ∨ (o.layer.nExpert : Int) ≤ e then o
  else
    let e := e.toNat
    let l := o.layer
    match l.expertSlot e with
    | some s =>
      { o with
        layer := { l with slotLastUse := update l.slotLastUse s clock, slotHits := update l.slotHits s (min (l.slotHits s + 1) uint16Max) }
        hits := s :: o.hits }
    | none =>
      { o with
        layer := { l with missCount := update l.missCount e (min (l.missCount e + 1) uint16Max) }
        cand := if !l.expertPending e && !o.cand.contains e then o.cand ++ [e] else o.cand }

/-- Every 64 steps the heat of the slots is halved. -/
def age (clock : Nat) : Layer :=
  if clock % 64 = 0 then { l with slotHits := fun s => l.slotHits s / 2 } else l

/-- `std::sort`, which may leave equal elements in any order. -/
structure StdSort where
  sort : (Nat → Nat) → List Nat → List Nat
  perm : ∀ key es, (sort key es).Perm es

/-- The observations are consumed; the missing experts with the most misses come first. -/
def consume (sort : StdSort) (clock : Nat) : Observed :=
  let o := l.obs.foldl (observeOne clock) { layer := l }
  let l := { o.layer with obs := [] }.age clock
  { o with layer := l, cand := sort.sort l.missCount o.cand }

def freeSlot : Option Nat :=
  (List.range l.nSlots).find? fun s => (l.slotExpert s).isNone && !l.slotInFlight s

/-- The search for the least recently used slot among those without an upload and without a hit in this step: among those
with few hits, and among all. -/
def lru (clock hotUses : Nat) : List Nat → Option Nat → Option Nat → Option Nat × Option Nat
  | [], cold, any => (cold, any)
  | s :: ss, cold, any =>
    if l.slotInFlight s || l.slotLastUse s = clock then lru clock hotUses ss cold any
    else
      let older (t : Option Nat) : Bool := t.all fun t => l.slotLastUse s < l.slotLastUse t
      lru clock hotUses ss (if l.slotHits s ≤ hotUses && older cold then some s else cold) (if older any then some s else any)

/-- The slot to evict from. -/
def victim (clock hotUses : Nat) : Option Nat :=
  let (cold, any) := l.lru clock hotUses (List.range l.nSlots) none none
  cold.or any

def evict (slot : Nat) : Layer :=
  { l with
    expertSlot := match l.slotExpert slot with
      | some e => update l.expertSlot e none
      | none => l.expertSlot
    slotExpert := update l.slotExpert slot none }

def schedule (expert slot : Nat) : Layer :=
  { l with
    slotInFlight := update l.slotInFlight slot true
    expertPending := update l.expertPending expert true }

/-- What the search for an upload ends with. -/
structure Admitted where
  layer : Layer
  /-- The missing experts that were not looked at. -/
  rest : List Nat := []
  /-- The expert and the slot of the upload. -/
  job : Option (Nat × Nat) := none
  evicted : Option Nat := none

/-- The loop over the missing experts, which ends with an upload. -/
def admission (clock hotUses : Nat) (l : Layer) : List Nat → Admitted
  | [] => { layer := l }
  | e :: rest =>
    match l.freeSlot with
    | some s => { layer := l.schedule e s, rest := rest, job := some (e, s) }
    | none =>
      if l.missCount e < 2 then admission clock hotUses l rest
      else
        match l.victim clock hotUses with
        | none => { layer := l }
        | some s => { layer := (l.evict s).schedule e s, rest := rest, job := some (e, s), evicted := some s }

/-- A layer as `create` makes it, with `staticFill` experts in their slots. -/
def create (nExpert slotsFit slab staticFill : Nat) : Layer :=
  let l : Layer := { nExpert := nExpert, nSlots := min slotsFit nExpert, slab := slab }
  ((List.range (min staticFill l.nSlots)).foldl (fun l e => l.fillSlot e e) l).flushTables

end Layer

/-! ## The cache -/

/-- An eviction, with the layer in front of it and the slots that were hit in the step. -/
structure Eviction where
  layer : Layer
  slot : Nat
  hits : List Nat

inductive MainPc where
  | between
  | graph
  /-- In `step`, with the finished uploads that were taken over. -/
  | publishing (finished : List Job)
  /-- In `step`, with the uploads that are scheduled. -/
  | scheduled (jobs : List Job)

inductive WorkerPc where
  | waiting
  /-- The copies of the first jobs of the batch have been started. -/
  | copying (batch : List Job) (started : Nat)
  /-- The upload backends were synchronized. -/
  | copied (batch : List Job)

structure Cache where
  params : Params
  nLayers : Nat
  layers : Nat → Layer
  nSteps : Nat := 0
  todo : List Job := []
  done : List Job := []
  main : MainPc := .between
  worker : WorkerPc := .waiting
  /-- The evictions so far. -/
  evictions : List Eviction := []

/-- The state of `step` while it schedules. -/
structure Scheduling where
  layers : Nat → Layer
  cands : Nat → List Nat
  hits : Nat → List Nat
  dirty : Nat → Bool
  bytes : Nat := 0
  jobs : List Job := []
  evictions : List Eviction := []

namespace Cache

variable (c : Cache)

def publishAll (clock : Nat) (layers : Nat → Layer) (finished : List Job) : Nat → Layer :=
  finished.foldl (fun layers j => update layers j.layer ((layers j.layer).publish clock j.expert j.slot)) layers

/-- One upload of a layer is scheduled, if there is one. -/
def scheduleOne (σ : Scheduling) (li : Nat) : Scheduling :=
  let l := σ.layers li
  let a := l.admission c.nSteps c.params.hotUses (σ.cands li)
  { layers := update σ.layers li a.layer
    cands := update σ.cands li a.rest
    hits := σ.hits
    dirty := if a.evicted.isSome then update σ.dirty li true else σ.dirty
    bytes := if a.job.isSome then σ.bytes + l.slab else σ.bytes
    jobs := σ.jobs ++ (a.job.map fun p => { layer := li, expert := p.1, slot := p.2 }).toList
    evictions := σ.evictions ++ (a.evicted.map fun s => { layer := l, slot := s, hits := σ.hits li }).toList }

def scheduleLayers (σ : Scheduling) : List Nat → Scheduling
  | [] => σ
  | li :: lis =>
    if c.params.stepCap ≤ σ.bytes ∨ c.params.stepCap < σ.bytes + (σ.layers li).slab then σ
    else scheduleLayers (c.scheduleOne σ li) lis

def scheduleRounds (σ : Scheduling) : Nat → Scheduling
  | 0 => σ
  | rounds + 1 => if c.params.stepCap ≤ σ.bytes then σ else scheduleRounds (c.scheduleLayers σ (List.range c.nLayers)) rounds

/-- `step` behind the finished uploads: they are published, the observations are consumed, uploads are scheduled, and the
tables of changed layers are written. -/
def reside (sort : Layer.StdSort) (finished : List Job) : Cache :=
  let layers := publishAll c.nSteps c.layers finished
  let observed := fun li => (layers li).consume sort c.nSteps
  let σ := c.scheduleRounds
    { layers := fun li => (observed li).layer
      cands := fun li => (observed li).cand
      hits := fun li => (observed li).hits
      dirty := fun li => finished.any (·.layer = li) }
    c.params.inserts
  { c with
    layers := fun li => if σ.dirty li then (σ.layers li).flushTables else σ.layers li
    main := .scheduled σ.jobs
    evictions := c.evictions ++ σ.evictions }

/-- `observe`, for a layer of the cache. -/
def observe (layers : Nat → Layer) (id : Nat × List Int) : Nat → Layer :=
  let l := layers id.1
  if c.nLayers ≤ id.1 ∨ c.params.maxBatch * 64 * 8 < l.obs.length + id.2.length then layers
  else update layers id.1 { l with obs := l.obs ++ id.2 }

/-- A copy is started, or done. -/
def write (layers : Nat → Layer) (j : Job) (content : SlotContent) : Nat → Layer :=
  update layers j.layer { layers j.layer with pool := update (layers j.layer).pool j.slot content }

def writeAll (layers : Nat → Layer) (batch : List Job) : Nat → Layer :=
  batch.foldl (fun layers j => write layers j (.weights j.expert)) layers

inductive Action where
  /-- A graph is started. -/
  | beginGraph
  /-- It ends, and its routed ids are observed. -/
  | endGraph (ids : List (Nat × List Int))
  /-- `step` takes over the finished uploads. -/
  | beginStep
  | reside (sort : Layer.StdSort)
  /-- `step` hands the scheduled uploads to the worker. -/
  | endStep
  /-- The worker takes all jobs. -/
  | take
  /-- It starts the next copy. -/
  | copy
  /-- It synchronizes the upload backends. -/
  | synchronize
  /-- It reports the jobs as done. -/
  | report

/-- What an action does; `none` if the thread is not there. -/
def step : Action → Option Cache
  | .beginGraph =>
    match c.main with
    | .between => some { c with main := .graph }
    | _ => none
  | .endGraph ids =>
    match c.main with
    | .graph => some { c with main := .between, layers := ids.foldl c.observe c.layers }
    | _ => none
  | .beginStep =>
    match c.main with
    | .between => some { c with main := .publishing c.done, done := [], nSteps := c.nSteps + 1 }
    | _ => none
  | .reside sort =>
    match c.main with
    | .publishing finished => some (c.reside sort finished)
    | _ => none
  | .endStep =>
    match c.main with
    | .scheduled jobs => some { c with main := .between, todo := c.todo ++ jobs }
    | _ => none
  | .take =>
    match c.worker, c.todo with
    | .waiting, j :: js => some { c with worker := .copying (j :: js) 0, todo := [] }
    | _, _ => none
  | .copy =>
    match c.worker with
    | .copying batch started =>
      batch[started]?.map fun j => { c with worker := .copying batch (started + 1), layers := write c.layers j .partly }
    | _ => none
  | .synchronize =>
    match c.worker with
    | .copying batch started =>
      if started = batch.length then
        some { c with worker := .copied batch, layers := writeAll c.layers batch }
      else none
    | _ => none
  | .report =>
    match c.worker with
    | .copied batch => some { c with worker := .waiting, done := c.done ++ batch }
    | _ => none

/-- The cache as `create` makes it, from the experts, the fitting slots and the bytes of an expert of every layer. -/
def create (params : Params) (specs : List (Nat × Nat × Nat)) : Cache where
  params := params
  nLayers := specs.length
  layers := fun li =>
    match specs[li]? with
    | some (nExpert, slotsFit, slab) => Layer.create nExpert slotsFit slab params.staticFill
    | none => Layer.create 0 0 0 0

end Cache

end LlamaCpp.MoeCache
