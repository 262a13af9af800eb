import LlamaCpp.Moe.Residency

/-!
# The observations, and which uploads they lead to

What consuming the observations of a layer gives (`consume_spec`): the arrays are the same, the missing experts are those
that can be uploaded, and a slot that was hit was last used in this step.  The search for an upload (`admission_spec`) then
takes a free slot or evicts: the victim of an eviction holds an expert, has no upload and was not hit in this step.
-/

namespace LlamaCpp.MoeCache

open List Option

open Function (update)

variable {l : Layer} {jobs completed : List Job} {cand : List Nat} {clock hotUses li : Nat}
  {s : Nat}

/-! ## Consuming the observations -/

structure ObserveInv (l : Layer) (clock : Nat) (o : Layer.Observed) : Prop where
  same : SameResidency l o.layer
  pool : o.layer.pool = l.pool
  cand : Candidates l o.cand
  hits : ∀ s ∈ o.hits, o.layer.slotLastUse s = clock

theorem ObserveInv.observeOne {o : Layer.Observed} (h : ObserveInv l clock o) (e : Int) :
    ObserveInv l clock (Layer.observeOne clock o e) := by
  unfold Layer.observeOne
  split
  · exact h
  · rename_i hrange
    rw [not_or, Int.not_lt, Int.not_le] at hrange
    obtain ⟨hnonneg, hlt⟩ := hrange
    have hbound : e.toNat < l.nExpert := by
      rw [← h.same.nExpert]
      omega
    dsimp only
    split
    · rename_i s hs
      constructor
      case same =>
        exact ⟨h.same.nExpert, h.same.nSlots, h.same.slotExpert, h.same.expertSlot, h.same.slotInFlight,
          h.same.expertPending, h.same.gpuTable, h.same.cpuTable⟩
      case pool => exact h.pool
      case cand => exact h.cand
      case hits =>
        intro s' hs'
        show update o.layer.slotLastUse s clock s' = clock
        rw [Function.update_apply]
        split
        · rfl
        · rename_i hne
          exact h.hits s' ((mem_cons.mp hs').resolve_left hne)
    · rename_i hnone
      constructor
      case same =>
        exact ⟨h.same.nExpert, h.same.nSlots, h.same.slotExpert, h.same.expertSlot, h.same.slotInFlight,
          h.same.expertPending, h.same.gpuTable, h.same.cpuTable⟩
      case pool => exact h.pool
      case hits => exact h.hits
      case cand =>
        split
        · rename_i hnew
          rw [Bool.and_eq_true, Bool.not_eq_true', Bool.not_eq_true', h.same.expertPending] at hnew
          obtain ⟨hpending, hnot⟩ := hnew
          rw [h.same.expertSlot] at hnone
          have hmem : e.toNat ∉ o.cand := fun hmem => Bool.eq_false_iff.mp hnot (contains_iff_mem.mpr hmem)
          have hall {p : Nat → Prop} (hold : ∀ e ∈ o.cand, p e) (hp : p e.toNat) : ∀ e' ∈ o.cand ++ [e.toNat], p e' :=
            fun e' he' => (List.mem_append.mp he').elim (hold e') fun hone => mem_singleton.mp hone ▸ hp
          exact ⟨nodup_append.mpr ⟨h.cand.nodup, pairwise_singleton _ _,
              fun a ha b hb heq => hmem (mem_singleton.mp hb ▸ heq ▸ ha)⟩,
            hall h.cand.absent hnone, hall h.cand.notPending hpending, hall h.cand.bound hbound⟩
        · exact h.cand

theorem ObserveInv.foldl {o : Layer.Observed} (h : ObserveInv l clock o) (obs : List Int) :
    ObserveInv l clock (obs.foldl (Layer.observeOne clock) o) := by
  induction obs generalizing o with
  | nil => exact h
  | cons e obs ih => exact ih (h.observeOne e)

theorem Layer.age_spec (l : Layer) (clock : Nat) :
    SameResidency l (l.age clock) ∧ (l.age clock).pool = l.pool ∧ (l.age clock).slotLastUse = l.slotLastUse := by
  unfold Layer.age
  split
  · exact ⟨⟨rfl, rfl, rfl, rfl, rfl, rfl, rfl, rfl⟩, rfl, rfl⟩
  · exact ⟨SameResidency.refl l, rfl, rfl⟩

theorem consume_spec (l : Layer) (sort : Layer.StdSort) (clock : Nat) : ObserveInv l clock (l.consume sort clock) := by
  have hstart : ObserveInv l clock { layer := l } :=
    ⟨SameResidency.refl l, rfl, ⟨nodup_nil, nofun, nofun, nofun⟩, nofun⟩
  have h := hstart.foldl l.obs
  unfold Layer.consume
  generalize l.obs.foldl (Layer.observeOne clock) { layer := l } = o at h
  have hage := Layer.age_spec { o.layer with obs := [] } clock
  obtain ⟨hsame, hpool, huse⟩ := hage
  constructor
  case same =>
    exact ⟨hsame.nExpert.trans h.same.nExpert, hsame.nSlots.trans h.same.nSlots,
      hsame.slotExpert.trans h.same.slotExpert, hsame.expertSlot.trans h.same.expertSlot,
      hsame.slotInFlight.trans h.same.slotInFlight, hsame.expertPending.trans h.same.expertPending,
      hsame.gpuTable.trans h.same.gpuTable, hsame.cpuTable.trans h.same.cpuTable⟩
  case pool => exact hpool.trans h.pool
  case cand =>
    have hperm := sort.perm ({ o.layer with obs := [] }.age clock).missCount o.cand
    exact ⟨hperm.nodup_iff.mpr h.cand.nodup, fun e he => h.cand.absent e (hperm.mem_iff.mp he),
      fun e he => h.cand.notPending e (hperm.mem_iff.mp he), fun e he => h.cand.bound e (hperm.mem_iff.mp he)⟩
  case hits =>
    intro s hs
    rw [huse]
    exact h.hits s hs

theorem Candidates.congr {l' : Layer} (h : Candidates l cand) (hsame : SameResidency l l') : Candidates l' cand where
  nodup := h.nodup
  absent := by
    rw [hsame.expertSlot]
    exact h.absent
  notPending := by
    rw [hsame.expertPending]
    exact h.notPending
  bound := by
    rw [hsame.nExpert]
    exact h.bound

/-! ## The slot of an upload -/

theorem freeSlot_eq_some (h : l.freeSlot = some s) :
    s < l.nSlots ∧ l.slotExpert s = none ∧ l.slotInFlight s = false := by
  unfold Layer.freeSlot at h
  have hfound := find?_some h
  have hmem := mem_of_find?_eq_some h
  rw [Bool.and_eq_true, isNone_iff_eq_none, Bool.not_eq_true'] at hfound
  exact ⟨mem_range.mp hmem, hfound⟩

/-- No slot is free: a slot without an upload holds an expert. -/
theorem freeSlot_eq_none (h : l.freeSlot = none) (hs : s < l.nSlots)
    (hflight : l.slotInFlight s = false) : ∃ e, l.slotExpert s = some e := by
  unfold Layer.freeSlot at h
  have hnot := find?_eq_none.mp h s (mem_range.mpr hs)
  rw [hflight, Bool.not_false, Bool.and_true, isNone_iff_eq_none] at hnot
  exact ne_none_iff_exists'.mp hnot

/-- What the search for a victim looks at. -/
structure Evictable (l : Layer) (clock s : Nat) : Prop where
  bound : s < l.nSlots
  idle : l.slotInFlight s = false
  stale : l.slotLastUse s ≠ clock

theorem lru_evictable (ss : List Nat) {cold any : Option Nat} (hss : ∀ s ∈ ss, s < l.nSlots)
    (hcold : ∀ s ∈ cold, Evictable l clock s) (hany : ∀ s ∈ any, Evictable l clock s) :
    (∀ s ∈ (l.lru clock hotUses ss cold any).1, Evictable l clock s) ∧
      ∀ s ∈ (l.lru clock hotUses ss cold any).2, Evictable l clock s := by
  induction ss generalizing cold any with
  | nil => exact ⟨hcold, hany⟩
  | cons s ss ih =>
    have hrest : ∀ s ∈ ss, s < l.nSlots := fun t ht => hss t (mem_cons_of_mem s ht)
    unfold Layer.lru
    split
    · exact ih hrest hcold hany
    · rename_i hlooked
      rw [Bool.or_eq_true, not_or, Bool.not_eq_true, decide_eq_true_eq] at hlooked
      have hs : Evictable l clock s := ⟨hss s mem_cons_self, hlooked.1, hlooked.2⟩
      have hset {b : Bool} {o : Option Nat} (ho : ∀ s ∈ o, Evictable l clock s) :
          ∀ t ∈ (if b then some s else o), Evictable l clock t := by
        intro t ht
        split at ht
        · exact some.inj ht ▸ hs
        · exact ho t ht
      exact ih hrest (hset hcold) (hset hany)

/-- A victim holds an expert if no slot is free. -/
theorem victim_spec (hfree : l.freeSlot = none) (h : l.victim clock hotUses = some s) :
    Evictable l clock s ∧ ∃ e, l.slotExpert s = some e := by
  have hboth := @lru_evictable l clock hotUses (List.range l.nSlots) none none (fun s hs => mem_range.mp hs) nofun nofun
  unfold Layer.victim at h
  have hs : Evictable l clock s := by
    rcases or_eq_some_iff.mp h with hcold | ⟨_, hany⟩
    · exact hboth.1 s hcold
    · exact hboth.2 s hany
  exact ⟨hs, freeSlot_eq_none hfree hs.bound hs.idle⟩

/-! ## The search for an upload -/

/-- What the search for an upload in a layer with candidates ends with. -/
structure Admits (li clock : Nat) (l : Layer) (jobs completed : List Job) (a : Layer.Admitted) : Prop where
  residency : Residency a.layer ((a.job.map fun p => (⟨li, p.1, p.2⟩ : Job)).toList ++ jobs)
  pool : PoolOk a.layer completed
  cand : Candidates a.layer a.rest
  lastUse : a.layer.slotLastUse = l.slotLastUse
  /-- The tables are only changed by an eviction. -/
  tables : a.evicted = none → TablesOk l → TablesOk a.layer
  evicted : ∀ s ∈ a.evicted, Evictable l clock s ∧ ∃ e, l.slotExpert s = some e

theorem Candidates.tail {e : Nat} (h : Candidates l (e :: cand)) : Candidates l cand where
  nodup := (nodup_cons.mp h.nodup).2
  absent e' he' := h.absent e' (mem_cons_of_mem e he')
  notPending e' he' := h.notPending e' (mem_cons_of_mem e he')
  bound e' he' := h.bound e' (mem_cons_of_mem e he')

/-- Scheduling the first candidate leaves the others. -/
theorem Candidates.schedule {e : Nat} (h : Candidates l (e :: cand)) : Candidates (l.schedule e s) cand where
  nodup := h.tail.nodup
  absent := h.tail.absent
  notPending e' he' := by
    have hne : e' ≠ e := by
      rintro rfl
      exact (nodup_cons.mp h.nodup).1 he'
    show update l.expertPending e true e' = false
    rw [Function.update_of_ne hne]
    exact h.tail.notPending e' he'
  bound := h.tail.bound

theorem Candidates.evict (h : Candidates l cand) : Candidates (l.evict s) cand :=
  { h with
    absent e he := by
      unfold Layer.evict
      cases hslot : l.slotExpert s with
      | none => exact h.absent e he
      | some old =>
        show update l.expertSlot old none e = none
        rw [Function.update_apply]
        split
        · rfl
        · exact h.absent e he }

theorem admission_spec (hres : Residency l jobs) (hpool : PoolOk l completed) (hcand : Candidates l cand) :
    Admits li clock l jobs completed (l.admission clock hotUses cand) := by
  induction cand with
  | nil => exact ⟨hres, hpool, hcand, rfl, fun _ h => h, nofun⟩
  | cons e rest ih =>
    have he := hcand.absent e mem_cons_self
    have hpending := hcand.notPending e mem_cons_self
    have hbound := hcand.bound e mem_cons_self
    unfold Layer.admission
    split
    · rename_i s hfree
      obtain ⟨hs, hslot, hflight⟩ := freeSlot_eq_some hfree
      exact ⟨hres.schedule li ⟨hs, hbound⟩ hslot hflight he hpending, hpool.schedule, hcand.schedule, rfl,
        fun _ h => ⟨h.gpu, h.cpu⟩, nofun⟩
    · rename_i hfree
      split
      · exact ih hcand.tail
      · split
        · exact ⟨hres, hpool, ⟨nodup_nil, nofun, nofun, nofun⟩, rfl, fun _ h => h, nofun⟩
        · rename_i s hvictim
          obtain ⟨hs, old, hold⟩ := victim_spec hfree hvictim
          obtain ⟨hres', hslotExpert, -⟩ := hres.evict hold
          have hempty : (l.evict s).slotExpert s = none := by
            rw [hslotExpert, Function.update_self]
          have hres'' := hres'.schedule li ⟨hs.bound, hbound⟩ hempty hs.idle
            (hcand.evict.absent e mem_cons_self) hpending
          exact ⟨hres'', hpool.evict.schedule, hcand.evict.schedule, rfl, nofun,
            fun t ht => some.inj ht ▸ ⟨hs, old, hold⟩⟩

end LlamaCpp.MoeCache
