import LlamaCpp.Lib.Runs
import LlamaCpp.Moe.CacheInvariant
import Mathlib.Data.List.Sort

/-!
# Every interleaving of the main thread and the worker

`CacheInv` holds in every state that `create` and the actions of the two threads lead to (`reaches_cacheInv`).  In these
states the arrays and the tables account for what is resident and what is under way (`reaches_accounted`), and a graph that
follows the table of a layer finds the weights of the expert, in a slot that no upload is about to write
(`graph_reads_weights`).
-/

namespace LlamaCpp.MoeCache

open List Option

open Function (update)

/-! ## Scheduling -/

/-- What an eviction must look like: the slot holds an expert, has no upload, and was not hit in this step. -/
structure Eviction.Ok (ev : Eviction) : Prop where
  resident : ∃ e, ev.layer.slotExpert ev.slot = some e
  idle : ev.layer.slotInFlight ev.slot = false
  unhit : ev.slot ∉ ev.hits

/-- What `step` keeps while it schedules; `jobs` and `completed` are those from before. -/
structure SchedulingInv (clock : Nat) (jobs completed : List Job) (σ : Scheduling) : Prop where
  residency : ∀ li, Residency (σ.layers li) (jobsOf li (σ.jobs ++ jobs))
  pool : ∀ li, PoolOk (σ.layers li) (jobsOf li completed)
  cands : ∀ li, Candidates (σ.layers li) (σ.cands li)
  hits : ∀ li, ∀ s ∈ σ.hits li, (σ.layers li).slotLastUse s = clock
  /-- A layer whose tables are not up to date is written. -/
  tables : ∀ li, σ.dirty li = false → TablesOk (σ.layers li)
  evictions : ∀ ev ∈ σ.evictions, ev.Ok

section Scheduling

variable {c : Cache} {jobs completed : List Job} {σ : Scheduling}

/-- The new job is the only one that is added to its layer. -/
theorem jobsOf_new (li : Nat) (p : Option (Nat × Nat)) :
    jobsOf li (p.map fun p => (⟨li, p.1, p.2⟩ : Job)).toList = (p.map fun p => (⟨li, p.1, p.2⟩ : Job)).toList := by
  cases p with
  | none => rfl
  | some p => exact jobsOf_cons rfl

theorem jobsOf_new_of_ne {li li' : Nat} (h : li ≠ li') (p : Option (Nat × Nat)) :
    jobsOf li' (p.map fun p => (⟨li, p.1, p.2⟩ : Job)).toList = [] := by
  cases p with
  | none => rfl
  | some p => exact jobsOf_cons_of_ne h

theorem SchedulingInv.scheduleOne (h : SchedulingInv c.nSteps jobs completed σ) (li : Nat) :
    SchedulingInv c.nSteps jobs completed (c.scheduleOne σ li) := by
  have hadmits : Admits li c.nSteps (σ.layers li) (jobsOf li (σ.jobs ++ jobs)) (jobsOf li completed)
      ((σ.layers li).admission c.nSteps c.params.hotUses (σ.cands li)) :=
    admission_spec (h.residency li) (h.pool li) (h.cands li)
  unfold Cache.scheduleOne
  dsimp only
  generalize (σ.layers li).admission c.nSteps c.params.hotUses (σ.cands li) = a at hadmits
  constructor
  case residency =>
    intro li'
    dsimp only
    rw [jobsOf_append, jobsOf_append, append_assoc]
    by_cases hli : li = li'
    · subst hli
      rw [Function.update_self, jobsOf_new]
      refine hadmits.residency.perm ?_
      rw [jobsOf_append, ← append_assoc, ← append_assoc]
      exact perm_append_comm.append_right _
    · rw [Function.update_of_ne (Ne.symm hli), jobsOf_new_of_ne hli, nil_append, ← jobsOf_append]
      exact h.residency li'
  case pool =>
    intro li'
    dsimp only
    by_cases hli : li' = li
    · subst hli
      rw [Function.update_self]
      exact hadmits.pool
    · rw [Function.update_of_ne hli]
      exact h.pool li'
  case cands =>
    intro li'
    dsimp only
    by_cases hli : li' = li
    · subst hli
      rw [Function.update_self, Function.update_self]
      exact hadmits.cand
    · rw [Function.update_of_ne hli, Function.update_of_ne hli]
      exact h.cands li'
  case hits =>
    intro li' s hs
    dsimp only at hs ⊢
    by_cases hli : li' = li
    · subst hli
      rw [Function.update_self, hadmits.lastUse]
      exact h.hits li' s hs
    · rw [Function.update_of_ne hli]
      exact h.hits li' s hs
  case tables =>
    intro li' hclean
    dsimp only at hclean ⊢
    by_cases hli : li' = li
    · subst hli
      rw [Function.update_self]
      cases hevicted : a.evicted with
      | none =>
        rw [hevicted] at hclean
        exact hadmits.tables hevicted (h.tables li' hclean)
      | some s =>
        rw [hevicted, isSome_some, if_pos rfl, Function.update_self] at hclean
        nomatch hclean
    · rw [Function.update_of_ne hli]
      refine h.tables li' ?_
      split at hclean
      · rw [Function.update_of_ne hli] at hclean
        exact hclean
      · exact hclean
  case evictions =>
    intro ev hev
    rcases List.mem_append.mp hev with hold | hnew
    · exact h.evictions ev hold
    · obtain ⟨s, hs, rfl⟩ := map_eq_some_iff.mp (mem_toList.mp hnew)
      obtain ⟨hevictable, hresident⟩ := hadmits.evicted s hs
      exact ⟨hresident, hevictable.idle, fun hhit => hevictable.stale (h.hits li s hhit)⟩

theorem SchedulingInv.scheduleLayers (h : SchedulingInv c.nSteps jobs completed σ) (lis : List Nat) :
    SchedulingInv c.nSteps jobs completed (c.scheduleLayers σ lis) := by
  induction lis generalizing σ with
  | nil => exact h
  | cons li lis ih =>
    unfold Cache.scheduleLayers
    split
    · exact h
    · exact ih (h.scheduleOne li)

theorem SchedulingInv.scheduleRounds (h : SchedulingInv c.nSteps jobs completed σ) (rounds : Nat) :
    SchedulingInv c.nSteps jobs completed (c.scheduleRounds σ rounds) := by
  induction rounds generalizing σ with
  | zero => exact h
  | succ rounds ih =>
    unfold Cache.scheduleRounds
    split
    · exact h
    · exact ih (h.scheduleLayers _)

end Scheduling

/-! ## The invariant -/

def MainPc.jobs : MainPc → List Job
  | .between => []
  | .graph => []
  | .publishing finished => finished
  | .scheduled jobs => jobs

/-- The finished jobs that the main thread publishes next. -/
def MainPc.finished : MainPc → List Job
  | .publishing finished => finished
  | _ => []

def WorkerPc.jobs : WorkerPc → List Job
  | .waiting => []
  | .copying batch _ => batch
  | .copied batch => batch

/-- The jobs whose copies are done. -/
def WorkerPc.completed : WorkerPc → List Job
  | .copied batch => batch
  | _ => []

/-- The jobs that are scheduled and not published. -/
def Cache.jobs (c : Cache) : List Job := c.main.jobs ++ c.todo ++ c.worker.jobs ++ c.done

/-- The jobs whose copies are done, and that are not published. -/
def Cache.completed (c : Cache) : List Job := c.main.finished ++ c.worker.completed ++ c.done

/-- What every action keeps. -/
structure CacheInv (c : Cache) : Prop where
  residency : ∀ li, Residency (c.layers li) (jobsOf li c.jobs)
  tables : ∀ li, TablesOk (c.layers li)
  pool : ∀ li, PoolOk (c.layers li) (jobsOf li c.completed)
  evictions : ∀ ev ∈ c.evictions, ev.Ok

section Invariant

variable {c c' : Cache} {j : Job}

/-- Jobs that are handed over stay under way. -/
theorem CacheInv.move (h : CacheInv c) (hlayers : c'.layers = c.layers) (hevictions : c'.evictions = c.evictions)
    (hjobs : c.jobs.Perm c'.jobs) (hcompleted : c.completed.Perm c'.completed) : CacheInv c' where
  residency := by
    rw [hlayers]
    exact fun li => (h.residency li).perm (jobsOf_perm hjobs)
  tables := by
    rw [hlayers]
    exact h.tables
  pool := by
    rw [hlayers]
    exact fun li => (h.pool li).mono fun j hj => (jobsOf_perm hcompleted).mem_iff.mpr hj
  evictions := by
    rw [hevictions]
    exact h.evictions

theorem observe_same (layers : Nat → Layer) (id : Nat × List Int) (li : Nat) :
    SameResidency (layers li) (c.observe layers id li) ∧ (c.observe layers id li).pool = (layers li).pool := by
  unfold Cache.observe
  split
  · exact ⟨SameResidency.refl _, rfl⟩
  · by_cases hli : li = id.1
    · subst hli
      rw [Function.update_self]
      exact ⟨⟨rfl, rfl, rfl, rfl, rfl, rfl, rfl, rfl⟩, rfl⟩
    · rw [Function.update_of_ne hli]
      exact ⟨SameResidency.refl _, rfl⟩

theorem CacheInv.observe (h : CacheInv c) (ids : List (Nat × List Int)) (li : Nat) :
    Residency (ids.foldl c.observe c.layers li) (jobsOf li c.jobs) ∧ TablesOk (ids.foldl c.observe c.layers li) ∧
      PoolOk (ids.foldl c.observe c.layers li) (jobsOf li c.completed) := by
  have hstart := And.intro (h.residency li) (And.intro (h.tables li) (h.pool li))
  generalize c.layers = layers at hstart
  induction ids generalizing layers with
  | nil => exact hstart
  | cons id ids ih =>
    obtain ⟨hsame, hpool⟩ := observe_same (c := c) layers id li
    exact ih _ ⟨hstart.1.congr hsame, hstart.2.1.congr hsame, hstart.2.2.congr hsame.slotExpert hpool⟩

/-- `step` publishes, consumes and schedules. -/
theorem CacheInv.reside (h : CacheInv c) (sort : Layer.StdSort) {finished : List Job} (hmain : c.main = .publishing finished) :
    CacheInv (c.reside sort finished) := by
  let rest := c.todo ++ c.worker.jobs ++ c.done
  let completed := c.worker.completed ++ c.done
  have hjobs : c.jobs = finished ++ rest := by
    unfold Cache.jobs
    rw [hmain, append_assoc, append_assoc]
    show finished ++ (c.todo ++ (c.worker.jobs ++ c.done)) = finished ++ (c.todo ++ c.worker.jobs ++ c.done)
    rw [append_assoc]
  have hcompleted : c.completed = finished ++ completed := by
    unfold Cache.completed
    rw [hmain, append_assoc]
    rfl
  have hpublished := @publishAll_spec c.nSteps c.layers finished rest completed (fun li => hjobs ▸ h.residency li)
    (fun li => hcompleted ▸ h.pool li)
  let layers := Cache.publishAll c.nSteps c.layers finished
  let observed := fun li => (layers li).consume sort c.nSteps
  let σ : Scheduling :=
    { layers := fun li => (observed li).layer
      cands := fun li => (observed li).cand
      hits := fun li => (observed li).hits
      dirty := fun li => finished.any (·.layer = li) }
  have hobserved (li) : ObserveInv (layers li) c.nSteps (observed li) := consume_spec (layers li) sort c.nSteps
  have hσ : SchedulingInv c.nSteps rest completed σ := by
    constructor
    case residency => exact fun li => (hpublished li).1.congr (hobserved li).same
    case pool => exact fun li => (hpublished li).2.1.congr (hobserved li).same.slotExpert (hobserved li).pool
    case cands => exact fun li => (hobserved li).cand.congr (hobserved li).same
    case hits => exact fun li => (hobserved li).hits
    case tables =>
      intro li hclean
      have hnone : ∀ j ∈ finished, j.layer ≠ li := fun j hj heq =>
        Bool.eq_false_iff.mp hclean (List.any_eq_true.mpr ⟨j, hj, decide_eq_true heq⟩)
      have hsame : layers li = c.layers li := (hpublished li).2.2 hnone
      have htables : TablesOk (layers li) := hsame ▸ h.tables li
      exact htables.congr (hobserved li).same
    case evictions => exact nofun
  have hend := hσ.scheduleRounds c.params.inserts
  generalize hτ : c.scheduleRounds σ c.params.inserts = τ at hend
  have hreside : c.reside sort finished =
      { c with
        layers := fun li => if τ.dirty li then (τ.layers li).flushTables else τ.layers li
        main := .scheduled τ.jobs
        evictions := c.evictions ++ τ.evictions } := by
    rw [← hτ]
    rfl
  rw [hreside]
  constructor
  case residency =>
    intro li
    have hres := hend.residency li
    have hjobs' : τ.jobs ++ rest = τ.jobs ++ c.todo ++ c.worker.jobs ++ c.done := by
      rw [← append_assoc, ← append_assoc]
    rw [hjobs'] at hres
    dsimp only
    split
    · exact hres.flushTables
    · exact hres
  case tables =>
    intro li
    dsimp only
    split
    · exact TablesOk.flushTables _
    · rename_i hclean
      exact hend.tables li (Bool.eq_false_iff.mpr hclean)
  case pool =>
    intro li
    have hpool := hend.pool li
    dsimp only
    split
    · exact hpool.congr rfl rfl
    · exact hpool
  case evictions =>
    intro ev hev
    exact (List.mem_append.mp hev).elim (h.evictions ev) (hend.evictions ev)

theorem Cache.jobs_perm (c : Cache) : c.jobs.Perm (c.worker.jobs ++ (c.main.jobs ++ c.todo ++ c.done)) := by
  unfold Cache.jobs
  rw [append_assoc _ c.worker.jobs, append_assoc _ _ c.done]
  refine (perm_append_comm_assoc _ _ _).trans ?_
  rw [append_assoc]

theorem MainPc.finished_subset (pc : MainPc) (hj : j ∈ pc.finished) : j ∈ pc.jobs := by
  cases pc with
  | publishing finished => exact hj
  | _ => nomatch hj

/-- Completed jobs that the worker has reported. -/
theorem Cache.reported_subset (c : Cache) (hj : j ∈ c.main.finished ++ c.done) :
    j ∈ c.main.jobs ++ c.todo ++ c.done := by
  rcases List.mem_append.mp hj with hfinished | hdone
  · exact mem_append_left _ (mem_append_left _ (c.main.finished_subset hfinished))
  · exact mem_append_right _ hdone

theorem CacheInv.copy (h : CacheInv c) {batch : List Job} {started : Nat}
    (hworker : c.worker = .copying batch started) (hj : j ∈ batch) :
    CacheInv { c with worker := .copying batch (started + 1), layers := Cache.write c.layers j .partly } := by
  have hjobs := c.jobs_perm
  rw [hworker] at hjobs
  have hcompleted : c.completed = c.main.finished ++ c.done := by
    unfold Cache.completed
    rw [hworker]
    exact congrArg (· ++ c.done) (append_nil c.main.finished)
  constructor
  case residency =>
    intro li
    refine ((h.residency li).congr (write_same li)).perm (jobsOf_perm ?_)
    unfold Cache.jobs
    rw [hworker]
    exact List.Perm.refl _
  case tables => exact fun li => (h.tables li).congr (write_same li)
  case evictions => exact h.evictions
  case pool =>
    intro li
    have hpool := h.pool li
    rw [hcompleted] at hpool
    show PoolOk (Cache.write c.layers j .partly li) (jobsOf li (c.main.finished ++ [] ++ c.done))
    rw [append_nil]
    by_cases hli : j.layer = li
    · subst hli
      obtain ⟨before, after, rfl⟩ := append_of_mem hj
      have hfirst := hjobs.trans (perm_middle.append_right _)
      have hres := (h.residency j.layer).perm (jobsOf_perm hfirst)
      rw [cons_append, jobsOf_cons rfl] at hres
      rw [write_self]
      refine hpool.write hres fun k hk => ?_
      rw [mem_jobsOf] at hk ⊢
      exact ⟨mem_append_right _ (c.reported_subset hk.1), hk.2⟩
    · rw [write_of_ne hli]
      exact hpool

theorem CacheInv.synchronize (h : CacheInv c) {batch : List Job} {started : Nat} (hworker : c.worker = .copying batch started) :
    CacheInv { c with worker := .copied batch, layers := Cache.writeAll c.layers batch } := by
  have hjobs := c.jobs_perm
  rw [hworker] at hjobs
  have hcompleted : c.completed = c.main.finished ++ c.done := by
    unfold Cache.completed
    rw [hworker]
    exact congrArg (· ++ c.done) (append_nil c.main.finished)
  have hspec := writeAll_spec (fun li => (h.residency li).perm (jobsOf_perm hjobs)) (fun li => hcompleted ▸ h.pool li)
    fun j hj => c.reported_subset hj
  constructor
  case residency =>
    intro li
    exact (hspec li).1.perm (jobsOf_perm (Cache.jobs_perm { c with worker := .copied batch, layers := _ }).symm)
  case tables => exact fun li => (hspec li).2.1 (h.tables li)
  case evictions => exact h.evictions
  case pool =>
    intro li
    refine (hspec li).2.2.mono fun k hk => ?_
    rw [mem_jobsOf] at hk ⊢
    have hmem : k ∈ c.main.finished ++ batch ++ c.done := hk.1
    exact ⟨(perm_append_comm_assoc _ _ _).mem_iff.mp (append_assoc _ _ c.done ▸ hmem), hk.2⟩

theorem CacheInv.step (h : CacheInv c) {a : Cache.Action} (hstep : c.step a = some c') : CacheInv c' := by
  cases a with
  | beginGraph =>
    simp only [Cache.step] at hstep
    split at hstep
    · rename_i hmain
      obtain rfl := some.inj hstep
      refine h.move rfl rfl ?_ ?_
      · unfold Cache.jobs
        rw [hmain]
        exact List.Perm.refl _
      · unfold Cache.completed
        rw [hmain]
        exact List.Perm.refl _
    · nomatch hstep
  | endGraph ids =>
    simp only [Cache.step] at hstep
    split at hstep
    · rename_i hmain
      obtain rfl := some.inj hstep
      have hjobs : ({ c with main := .between, layers := ids.foldl c.observe c.layers } : Cache).jobs = c.jobs := by
        unfold Cache.jobs
        rw [hmain]
        rfl
      have hcompleted : ({ c with main := .between, layers := ids.foldl c.observe c.layers } : Cache).completed = c.completed := by
        unfold Cache.completed
        rw [hmain]
        rfl
      constructor
      case residency => exact fun li => hjobs ▸ (h.observe ids li).1
      case tables => exact fun li => (h.observe ids li).2.1
      case pool => exact fun li => hcompleted ▸ (h.observe ids li).2.2
      case evictions => exact h.evictions
    · nomatch hstep
  | beginStep =>
    simp only [Cache.step] at hstep
    split at hstep
    · rename_i hmain
      obtain rfl := some.inj hstep
      refine h.move rfl rfl ?_ ?_
      · unfold Cache.jobs
        rw [hmain]
        show (c.todo ++ c.worker.jobs ++ c.done).Perm (c.done ++ c.todo ++ c.worker.jobs ++ [])
        rw [append_nil, append_assoc c.done]
        exact perm_append_comm
      · unfold Cache.completed
        rw [hmain]
        show (c.worker.completed ++ c.done).Perm (c.done ++ c.worker.completed ++ [])
        rw [append_nil]
        exact perm_append_comm
    · nomatch hstep
  | reside sort =>
    simp only [Cache.step] at hstep
    split at hstep
    · rename_i finished hmain
      obtain rfl := some.inj hstep
      exact h.reside sort hmain
    · nomatch hstep
  | endStep =>
    simp only [Cache.step] at hstep
    split at hstep
    · rename_i jobs hmain
      obtain rfl := some.inj hstep
      refine h.move rfl rfl ?_ ?_
      · unfold Cache.jobs
        rw [hmain]
        exact (perm_append_comm.append_right _).append_right _
      · unfold Cache.completed
        rw [hmain]
        exact List.Perm.refl _
    · nomatch hstep
  | take =>
    simp only [Cache.step] at hstep
    split at hstep
    · rename_i j js hworker htodo
      obtain rfl := some.inj hstep
      refine h.move rfl rfl ?_ ?_
      · unfold Cache.jobs
        rw [hworker, htodo]
        show (c.main.jobs ++ (j :: js) ++ [] ++ c.done).Perm (c.main.jobs ++ [] ++ (j :: js) ++ c.done)
        rw [append_nil, append_nil]
      · unfold Cache.completed
        rw [hworker]
        exact List.Perm.refl _
    · nomatch hstep
  | copy =>
    simp only [Cache.step] at hstep
    split at hstep
    · rename_i batch started hworker
      obtain ⟨j, hj, rfl⟩ := map_eq_some_iff.mp hstep
      exact h.copy hworker (mem_of_getElem? hj)
    · nomatch hstep
  | synchronize =>
    simp only [Cache.step] at hstep
    split at hstep
    · rename_i batch started hworker
      obtain ⟨-, heq⟩ := ite_none_right_eq_some.mp hstep
      obtain rfl := some.inj heq
      exact h.synchronize hworker
    · nomatch hstep
  | report =>
    simp only [Cache.step] at hstep
    split at hstep
    · rename_i batch hworker
      obtain rfl := some.inj hstep
      refine h.move rfl rfl ?_ ?_
      · unfold Cache.jobs
        rw [hworker]
        show (c.main.jobs ++ c.todo ++ batch ++ c.done).Perm (c.main.jobs ++ c.todo ++ [] ++ (c.done ++ batch))
        rw [append_nil, append_assoc _ batch]
        exact perm_append_comm.append_left _
      · unfold Cache.completed
        rw [hworker]
        show (c.main.finished ++ batch ++ c.done).Perm (c.main.finished ++ [] ++ (c.done ++ batch))
        rw [append_nil, append_assoc _ batch]
        exact perm_append_comm.append_left _
    · nomatch hstep

end Invariant

/-! ## The states that are reached -/

/-- The first experts are in the slots of their numbers. -/
structure Filled (l₀ l : Layer) (n : Nat) : Prop where
  nExpert : l.nExpert = l₀.nExpert
  nSlots : l.nSlots = l₀.nSlots
  slotExpert : ∀ s, l.slotExpert s = if s < n then some s else none
  expertSlot : ∀ e, l.expertSlot e = if e < n then some e else none
  pool : ∀ s, s < n → l.pool s = .weights s
  slotInFlight : ∀ s, l.slotInFlight s = false
  expertPending : ∀ e, l.expertPending e = false

theorem Filled.fillSlot {l₀ l : Layer} {n : Nat} (h : Filled l₀ l n) : Filled l₀ (l.fillSlot n n) (n + 1) := by
  have hfree : l.slotExpert n = none := by
    rw [h.slotExpert, if_neg (Nat.lt_irrefl n)]
  have hexpertSlot : (l.fillSlot n n).expertSlot = update l.expertSlot n (some n) := by
    show (l.setResident n n).expertSlot = _
    unfold Layer.setResident
    rw [hfree]
  have hif (f : Nat → Option Nat) (hf : ∀ s, f s = if s < n then some s else none) (s : Nat) :
      update f n (some n) s = if s < n + 1 then some s else none := by
    rw [Function.update_apply, hf]
    by_cases hs : s = n
    · subst hs
      rw [if_pos rfl, if_pos (Nat.lt_succ_self s)]
    · have hiff : s < n + 1 ↔ s < n := by omega
      rw [if_neg hs]
      simp only [hiff]
  constructor
  case nExpert => exact h.nExpert
  case nSlots => exact h.nSlots
  case slotExpert => exact hif l.slotExpert h.slotExpert
  case expertSlot =>
    rw [hexpertSlot]
    exact hif l.expertSlot h.expertSlot
  case pool =>
    intro s hs
    show update l.pool n (.weights n) s = .weights s
    by_cases heq : s = n
    · subst heq
      exact Function.update_self s _ l.pool
    · rw [Function.update_of_ne heq]
      exact h.pool s (by omega)
  case slotInFlight => exact h.slotInFlight
  case expertPending => exact h.expertPending

theorem Filled.range {l₀ : Layer} (h : Filled l₀ l₀ 0) (n : Nat) :
    Filled l₀ ((List.range n).foldl (fun l e => l.fillSlot e e) l₀) n := by
  induction n with
  | zero => exact h
  | succ n ih =>
    rw [range_succ, foldl_append]
    exact ih.fillSlot

/-- A layer that is filled, and whose tables are written, has no jobs. -/
theorem create_layer (nExpert slotsFit slab staticFill : Nat) :
    Residency (Layer.create nExpert slotsFit slab staticFill) [] ∧ TablesOk (Layer.create nExpert slotsFit slab staticFill) ∧
      PoolOk (Layer.create nExpert slotsFit slab staticFill) [] := by
  let l₀ : Layer := { nExpert := nExpert, nSlots := min slotsFit nExpert, slab := slab }
  have hstart : Filled l₀ l₀ 0 := ⟨rfl, rfl, fun _ => rfl, fun _ => rfl, nofun, fun _ => rfl, fun _ => rfl⟩
  have h := hstart.range (min staticFill l₀.nSlots)
  have hdef : Layer.create nExpert slotsFit slab staticFill =
      ((List.range (min staticFill l₀.nSlots)).foldl (fun l e => l.fillSlot e e) l₀).flushTables := rfl
  have hslots : l₀.nSlots ≤ l₀.nExpert := Nat.min_le_right slotsFit nExpert
  rw [hdef]
  generalize (List.range (min staticFill l₀.nSlots)).foldl (fun l e => l.fillSlot e e) l₀ = l at h
  have hsome {s e : Nat} (hs : l.slotExpert s = some e) : s < min staticFill l₀.nSlots ∧ s = e := by
    rw [h.slotExpert] at hs
    obtain ⟨hlt, heq⟩ := ite_none_right_eq_some.mp hs
    exact ⟨hlt, some.inj heq⟩
  have hres : Residency l [] := by
    constructor
    case inverse =>
      intro s e
      rw [h.slotExpert, h.expertSlot]
      constructor
      · intro hs
        obtain ⟨hlt, heq⟩ := ite_none_right_eq_some.mp hs
        obtain rfl := some.inj heq
        exact if_pos hlt
      · intro he
        obtain ⟨hlt, heq⟩ := ite_none_right_eq_some.mp he
        obtain rfl := some.inj heq
        exact if_pos hlt
    case bounds =>
      intro s e hs
      obtain ⟨hlt, rfl⟩ := hsome hs
      rw [h.nSlots, h.nExpert]
      omega
    case jobBounds => exact nofun
    case slots => exact nodup_nil
    case experts => exact nodup_nil
    case inFlight => exact fun s => iff_of_false (Bool.eq_false_iff.mp (h.slotInFlight s)) not_mem_nil
    case pending => exact fun e => iff_of_false (Bool.eq_false_iff.mp (h.expertPending e)) not_mem_nil
    case empty => exact nofun
    case absent => exact nofun
  refine ⟨hres.flushTables, TablesOk.flushTables l, fun s e hs => ?_, nofun⟩
  obtain ⟨hlt, rfl⟩ := hsome hs
  exact h.pool s hlt

theorem create_cacheInv (params : Params) (specs : List (Nat × Nat × Nat)) : CacheInv (Cache.create params specs) := by
  have hlayer (li : Nat) : Residency ((Cache.create params specs).layers li) [] ∧
      TablesOk ((Cache.create params specs).layers li) ∧ PoolOk ((Cache.create params specs).layers li) [] := by
    unfold Cache.create
    dsimp only
    split
    · exact create_layer _ _ _ _
    · exact create_layer _ _ _ _
  exact ⟨fun li => (hlayer li).1, fun li => (hlayer li).2.1, fun li => (hlayer li).2.2, nofun⟩

theorem slot_ne_skip (n : Nat) : (n : Int) ≠ expertSlotSkip := by
  unfold expertSlotSkip
  omega

section Reached

variable {params : Params} {specs : List (Nat × Nat × Nat)} {c : Cache}

theorem reaches_cacheInv (h : Runs.Reaches Cache.step (fun _ _ => True) (Cache.create params specs) c) : CacheInv c :=
  h.inv (fun _ _ _ hc _ hstep => hc.step hstep) (create_cacheInv params specs)

/-- What the arrays and the tables of a layer say about its experts and its jobs. -/
structure Accounted (c : Cache) (li : Nat) : Prop where
  inverse : ∀ s e, (c.layers li).slotExpert s = some e ↔ (c.layers li).expertSlot e = some s
  /-- A slot is in flight if it has a job, and it has at most one. -/
  inFlight : ∀ s, (c.jobs.countP fun j => j.layer = li ∧ j.slot = s) = if (c.layers li).slotInFlight s then 1 else 0
  inFlightEmpty : ∀ s, (c.layers li).slotInFlight s = true → (c.layers li).slotExpert s = none
  pending : ∀ e, (c.jobs.countP fun j => j.layer = li ∧ j.expert = e) = if (c.layers li).expertPending e then 1 else 0
  pendingAbsent : ∀ e, (c.layers li).expertPending e = true → (c.layers li).expertSlot e = none
  oneTable : ∀ e, (c.layers li).gpuTable e = expertSlotSkip ↔ (c.layers li).cpuTable e ≠ expertSlotSkip
  gpuTable : ∀ e s, (c.layers li).expertSlot e = some s → (c.layers li).gpuTable e = s
  cpuTable : ∀ e, (c.layers li).expertSlot e = none → (c.layers li).cpuTable e = e

/-- At most one job has a value, and one has it if the flag is set. -/
theorem count_jobs {jobs : List Job} {li : Nat} {f : Job → Nat} {flag : Bool} {v : Nat} (hnodup : ((jobsOf li jobs).map f).Nodup)
    (hflag : flag = true ↔ v ∈ (jobsOf li jobs).map f) :
    (jobs.countP fun j => j.layer = li ∧ f j = v) = if flag then 1 else 0 := by
  have hcount : (jobs.countP fun j => j.layer = li ∧ f j = v) = ((jobsOf li jobs).map f).count v := by
    unfold jobsOf
    rw [count_eq_countP, countP_map, countP_filter]
    refine countP_congr fun j _ => ?_
    simp [and_comm]
  rw [hcount]
  cases flag with
  | true => exact count_eq_one_of_mem hnodup (hflag.mp rfl)
  | false => exact count_eq_zero_of_not_mem fun hmem => nomatch hflag.mpr hmem

/-- In every state that is reached, each layer is accounted for, and every eviction was of a resident expert whose slot had no
upload and no hit in its step. -/
theorem reaches_accounted (h : Runs.Reaches Cache.step (fun _ _ => True) (Cache.create params specs) c) :
    (∀ li, Accounted c li) ∧ ∀ ev ∈ c.evictions, ev.Ok := by
  have hinv := reaches_cacheInv h
  refine ⟨fun li => ?_, hinv.evictions⟩
  have hres := hinv.residency li
  have htables := hinv.tables li
  constructor
  case inverse => exact hres.inverse
  case inFlight => exact fun s => count_jobs hres.slots (hres.inFlight s)
  case inFlightEmpty =>
    intro s hs
    obtain ⟨j, hj, rfl⟩ := List.mem_map.mp ((hres.inFlight s).mp hs)
    exact hres.empty j hj
  case pending => exact fun e => count_jobs hres.experts (hres.pending e)
  case pendingAbsent =>
    intro e he
    obtain ⟨j, hj, rfl⟩ := List.mem_map.mp ((hres.pending e).mp he)
    exact hres.absent j hj
  case oneTable =>
    intro e
    cases hslot : (c.layers li).expertSlot e with
    | none =>
      rw [(htables.missing hslot).1, (htables.missing hslot).2]
      exact iff_of_true rfl (slot_ne_skip e)
    | some s =>
      rw [(htables.resident hslot).1, (htables.resident hslot).2]
      exact iff_of_false (slot_ne_skip s) fun hne => hne rfl
  case gpuTable => exact fun e s hs => (htables.resident hs).1
  case cpuTable => exact fun e he => (htables.missing he).2

/-- A sort that keeps the order of equal elements. -/
def Layer.StdSort.stable : Layer.StdSort where
  sort key es := es.insertionSort fun a b => key b ≤ key a
  perm _ es := List.perm_insertionSort _ es

/-- One layer with three experts and one slot, whose first upload is done when the second expert has missed. -/
def firstUpload : List Cache.Action :=
  [.beginGraph, .endGraph [(0, [0, 1])], .beginStep, .reside .stable, .endStep, .take, .copy, .synchronize, .report,
    .beginGraph, .endGraph [(0, [1])], .beginStep, .reside .stable, .endStep, .beginGraph]

/-- The second expert takes the slot, and its copy has started. -/
def secondUpload : List Cache.Action :=
  firstUpload ++ [.endGraph [(0, [1])], .beginStep, .reside .stable, .endStep, .take, .copy]

theorem reaches_accounted_evicts : ∃ c : Cache, c.evictions.length = 1 ∧ c.jobs = [⟨0, 1, 0⟩] ∧ (∀ li, Accounted c li) ∧
    ∀ ev ∈ c.evictions, ev.Ok := by
  have hrun : ((Runs.permitted Cache.step (fun _ _ => True) (Cache.create {} [(3, 1, 1)]) secondUpload).any fun c =>
      c.evictions.length = 1 ∧ c.jobs = [⟨0, 1, 0⟩]) = true := by decide +kernel
  obtain ⟨c, hc, hval⟩ := (Option.any_eq_true _ _).mp hrun
  obtain ⟨hevictions, hjobs⟩ := of_decide_eq_true hval
  exact ⟨c, hevictions, hjobs, reaches_accounted (Runs.Reaches.refl.ofPermitted hc)⟩

/-- Where the table sends an expert to a slot, the slot holds the weights of that expert, and none of the jobs that are
scheduled and not published writes it.  This holds in every state, and so while a graph runs. -/
theorem graph_reads_weights (h : Runs.Reaches Cache.step (fun _ _ => True) (Cache.create params specs) c) {li e s : Nat}
    (hs : (c.layers li).gpuTable e = s) :
    (c.layers li).pool s = .weights e ∧ ∀ j ∈ c.jobs, ¬(j.layer = li ∧ j.slot = s) := by
  have hinv := reaches_cacheInv h
  have hres := hinv.residency li
  cases hslot : (c.layers li).expertSlot e with
  | none => exact absurd (hs.symm.trans ((hinv.tables li).missing hslot).1) (slot_ne_skip s)
  | some t =>
    obtain rfl := Int.ofNat.inj (hs.symm.trans ((hinv.tables li).resident hslot).1)
    have hresident := (hres.inverse s e).mpr hslot
    refine ⟨(hinv.pool li).resident s e hresident, ?_⟩
    rintro j hj ⟨hlayer, rfl⟩
    exact nomatch (hres.empty j (mem_jobsOf.mpr ⟨hj, hlayer⟩)).symm.trans hresident

theorem graph_reads_uploaded : ∃ c : Cache, (c.layers 0).gpuTable 0 = (0 : Nat) ∧ (c.layers 0).pool 0 = .weights 0 ∧
    ∀ j ∈ c.jobs, ¬(j.layer = 0 ∧ j.slot = 0) := by
  have hrun : ((Runs.permitted Cache.step (fun _ _ => True) (Cache.create {} [(3, 1, 1)]) firstUpload).any fun c =>
      (c.layers 0).gpuTable 0 = ((0 : Nat) : Int)) = true := by decide +kernel
  obtain ⟨c, hc, hval⟩ := (Option.any_eq_true _ _).mp hrun
  have hs := of_decide_eq_true hval
  exact ⟨c, hs, graph_reads_weights (Runs.Reaches.refl.ofPermitted hc) hs⟩

end Reached

end LlamaCpp.MoeCache
