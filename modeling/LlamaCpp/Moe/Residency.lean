import LlamaCpp.Moe.ExpertCache

/-!
# Who is resident, and what is under way

`Residency` relates the arrays of a layer to the jobs that were scheduled and not published: a slot with an upload holds no
expert, and an expert with an upload has no slot.  Publishing a job, scheduling one and evicting an expert keep it
(`Residency.publish`, `Residency.schedule`, `Residency.evict`), and nothing else touches the arrays (`SameResidency`).
-/

namespace LlamaCpp.MoeCache

open List Option

open Function (update)

/-- The arrays of a layer and its jobs that are not published. -/
structure Residency (l : Layer) (jobs : List Job) : Prop where
  inverse : ∀ s e, l.slotExpert s = some e ↔ l.expertSlot e = some s
  bounds : ∀ s e, l.slotExpert s = some e → s < l.nSlots ∧ e < l.nExpert
  jobBounds : ∀ j ∈ jobs, j.slot < l.nSlots ∧ j.expert < l.nExpert
  slots : (jobs.map (·.slot)).Nodup
  experts : (jobs.map (·.expert)).Nodup
  inFlight : ∀ s, l.slotInFlight s = true ↔ s ∈ jobs.map (·.slot)
  pending : ∀ e, l.expertPending e = true ↔ e ∈ jobs.map (·.expert)
  empty : ∀ j ∈ jobs, l.slotExpert j.slot = none
  absent : ∀ j ∈ jobs, l.expertSlot j.expert = none

structure SameResidency (l l' : Layer) : Prop where
  nExpert : l'.nExpert = l.nExpert
  nSlots : l'.nSlots = l.nSlots
  slotExpert : l'.slotExpert = l.slotExpert
  expertSlot : l'.expertSlot = l.expertSlot
  slotInFlight : l'.slotInFlight = l.slotInFlight
  expertPending : l'.expertPending = l.expertPending
  gpuTable : l'.gpuTable = l.gpuTable
  cpuTable : l'.cpuTable = l.cpuTable

/-- The tables say what the arrays do. -/
structure TablesOk (l : Layer) : Prop where
  gpu : l.gpuTable = l.flushTables.gpuTable
  cpu : l.cpuTable = l.flushTables.cpuTable

/-- A resident expert is in its slot, and so is one whose upload is complete. -/
structure PoolOk (l : Layer) (completed : List Job) : Prop where
  resident : ∀ s e, l.slotExpert s = some e → l.pool s = .weights e
  completed : ∀ j ∈ completed, l.pool j.slot = .weights j.expert

/-- Missing experts that can be uploaded. -/
structure Candidates (l : Layer) (cand : List Nat) : Prop where
  nodup : cand.Nodup
  absent : ∀ e ∈ cand, l.expertSlot e = none
  notPending : ∀ e ∈ cand, l.expertPending e = false
  bound : ∀ e ∈ cand, e < l.nExpert

section Layer

variable {l l' : Layer} {jobs jobs' completed : List Job} {cand : List Nat} {clock hotUses e s : Nat} {j : Job}

theorem SameResidency.refl (l : Layer) : SameResidency l l := ⟨rfl, rfl, rfl, rfl, rfl, rfl, rfl, rfl⟩

theorem Residency.congr (h : Residency l jobs) (hsame : SameResidency l l') : Residency l' jobs where
  inverse := by
    rw [hsame.slotExpert, hsame.expertSlot]
    exact h.inverse
  bounds := by
    rw [hsame.slotExpert, hsame.nSlots, hsame.nExpert]
    exact h.bounds
  jobBounds := by
    rw [hsame.nSlots, hsame.nExpert]
    exact h.jobBounds
  slots := h.slots
  experts := h.experts
  inFlight := by
    rw [hsame.slotInFlight]
    exact h.inFlight
  pending := by
    rw [hsame.expertPending]
    exact h.pending
  empty := by
    rw [hsame.slotExpert]
    exact h.empty
  absent := by
    rw [hsame.expertSlot]
    exact h.absent

theorem TablesOk.congr (h : TablesOk l) (hsame : SameResidency l l') : TablesOk l' where
  gpu := by
    unfold Layer.flushTables
    rw [hsame.gpuTable, hsame.expertSlot]
    exact h.gpu
  cpu := by
    unfold Layer.flushTables
    rw [hsame.cpuTable, hsame.expertSlot]
    exact h.cpu

/-- Writing the tables leaves the arrays alone. -/
theorem Residency.flushTables (h : Residency l jobs) : Residency l.flushTables jobs :=
  ⟨h.inverse, h.bounds, h.jobBounds, h.slots, h.experts, h.inFlight, h.pending, h.empty, h.absent⟩

theorem TablesOk.flushTables (l : Layer) : TablesOk l.flushTables := ⟨rfl, rfl⟩

/-- A resident expert is in the table of the GPU alone -/
theorem TablesOk.resident (h : TablesOk l) {e s : Nat} (hs : l.expertSlot e = some s) :
    l.gpuTable e = s ∧ l.cpuTable e = expertSlotSkip := by
  constructor
  · rw [h.gpu]
    simp [Layer.flushTables, hs]
  · rw [h.cpu]
    simp [Layer.flushTables, hs]

/-- A missing expert is in the table of the CPU alone -/
theorem TablesOk.missing (h : TablesOk l) {e : Nat} (he : l.expertSlot e = none) :
    l.gpuTable e = expertSlotSkip ∧ l.cpuTable e = e := by
  constructor
  · rw [h.gpu]
    simp [Layer.flushTables, he]
  · rw [h.cpu]
    simp [Layer.flushTables, he]

theorem Residency.perm (h : Residency l jobs) (hperm : jobs.Perm jobs') : Residency l jobs' where
  inverse := h.inverse
  bounds := h.bounds
  jobBounds j hj := h.jobBounds j (hperm.mem_iff.mpr hj)
  slots := ((hperm.map _).nodup_iff).mp h.slots
  experts := ((hperm.map _).nodup_iff).mp h.experts
  inFlight s := (h.inFlight s).trans (hperm.map _).mem_iff
  pending e := (h.pending e).trans (hperm.map _).mem_iff
  empty j hj := h.empty j (hperm.mem_iff.mpr hj)
  absent j hj := h.absent j (hperm.mem_iff.mpr hj)

/-- An expert without a slot is put into an empty slot. -/
theorem setResident_inverse (h : ∀ s e, l.slotExpert s = some e ↔ l.expertSlot e = some s) (hslot : l.slotExpert s = none)
    (hexpert : l.expertSlot e = none) (s' e' : Nat) :
    (l.setResident e s).slotExpert s' = some e' ↔ (l.setResident e s).expertSlot e' = some s' := by
  unfold Layer.setResident
  rw [hslot]
  simp only [Function.update_apply]
  by_cases hs : s' = s
  · subst hs
    rw [if_pos rfl]
    by_cases he : e' = e
    · subst he
      simp
    · rw [if_neg he]
      refine iff_of_false (fun heq => he (some.inj heq).symm) fun hold => ?_
      exact nomatch hslot.symm.trans ((h s' e').mpr hold)
  · rw [if_neg hs]
    by_cases he : e' = e
    · subst he
      rw [if_pos rfl]
      refine iff_of_false (fun hold => ?_) fun heq => hs (some.inj heq).symm
      exact nomatch hexpert.symm.trans ((h s' e').mp hold)
    · rw [if_neg he]
      exact h s' e'

theorem Residency.publish (h : Residency l (j :: jobs)) : Residency (l.publish clock j.expert j.slot) jobs := by
  have hslot := h.empty j mem_cons_self
  have hexpert := h.absent j mem_cons_self
  have hnodup := h.slots
  have hnodup' := h.experts
  rw [map_cons, nodup_cons] at hnodup hnodup'
  obtain ⟨hnotSlot, hslots⟩ := hnodup
  obtain ⟨hnotExpert, hexperts⟩ := hnodup'
  have hslotExpert : (l.publish clock j.expert j.slot).slotExpert = update l.slotExpert j.slot (some j.expert) := rfl
  have hexpertSlot : (l.publish clock j.expert j.slot).expertSlot = update l.expertSlot j.expert (some j.slot) := by
    unfold Layer.publish Layer.setResident
    rw [hslot]
  constructor
  case inverse => exact setResident_inverse h.inverse hslot hexpert
  case bounds =>
    intro s e hs
    rw [hslotExpert] at hs
    rw [Function.update_apply] at hs
    split at hs
    · rename_i heq
      subst heq
      obtain rfl := some.inj hs
      exact h.jobBounds j mem_cons_self
    · exact h.bounds s e hs
  case jobBounds => exact fun k hk => h.jobBounds k (mem_cons_of_mem j hk)
  case slots => exact hslots
  case experts => exact hexperts
  case inFlight =>
    intro s
    show update l.slotInFlight j.slot false s = true ↔ _
    rw [Function.update_apply]
    split
    · rename_i heq
      subst heq
      exact iff_of_false Bool.false_ne_true hnotSlot
    · rename_i hne
      rw [h.inFlight, map_cons, mem_cons]
      exact or_iff_right hne
  case pending =>
    intro e
    show update l.expertPending j.expert false e = true ↔ _
    rw [Function.update_apply]
    split
    · rename_i heq
      subst heq
      exact iff_of_false Bool.false_ne_true hnotExpert
    · rename_i hne
      rw [h.pending, map_cons, mem_cons]
      exact or_iff_right hne
  case empty =>
    intro k hk
    rw [hslotExpert, Function.update_of_ne fun heq => hnotSlot (List.mem_map.mpr ⟨k, hk, heq⟩)]
    exact h.empty k (mem_cons_of_mem j hk)
  case absent =>
    intro k hk
    rw [hexpertSlot, Function.update_of_ne fun heq => hnotExpert (List.mem_map.mpr ⟨k, hk, heq⟩)]
    exact h.absent k (mem_cons_of_mem j hk)

/-- An upload of a missing expert to an empty slot is scheduled. -/
theorem Residency.schedule (h : Residency l jobs) (li : Nat) (hbound : s < l.nSlots ∧ e < l.nExpert)
    (hslot : l.slotExpert s = none) (hflight : l.slotInFlight s = false) (hexpert : l.expertSlot e = none)
    (hpending : l.expertPending e = false) : Residency (l.schedule e s) (⟨li, e, s⟩ :: jobs) where
  inverse := h.inverse
  bounds := h.bounds
  jobBounds j hj := by
    rcases mem_cons.mp hj with rfl | hj
    · exact hbound
    · exact h.jobBounds j hj
  slots := by
    rw [map_cons, nodup_cons]
    exact ⟨fun hmem => Bool.eq_false_iff.mp hflight ((h.inFlight s).mpr hmem), h.slots⟩
  experts := by
    rw [map_cons, nodup_cons]
    exact ⟨fun hmem => Bool.eq_false_iff.mp hpending ((h.pending e).mpr hmem), h.experts⟩
  inFlight s' := by
    show update l.slotInFlight s true s' = true ↔ _
    rw [map_cons, mem_cons, ← h.inFlight]
    rw [Function.update_apply]
    split
    · rename_i heq
      exact iff_of_true rfl (.inl heq)
    · rename_i hne
      exact (or_iff_right hne).symm
  pending e' := by
    show update l.expertPending e true e' = true ↔ _
    rw [map_cons, mem_cons, ← h.pending]
    rw [Function.update_apply]
    split
    · rename_i heq
      exact iff_of_true rfl (.inl heq)
    · rename_i hne
      exact (or_iff_right hne).symm
  empty j hj := by
    rcases mem_cons.mp hj with rfl | hj
    · exact hslot
    · exact h.empty j hj
  absent j hj := by
    rcases mem_cons.mp hj with rfl | hj
    · exact hexpert
    · exact h.absent j hj

theorem Residency.evict (h : Residency l jobs) (hslot : l.slotExpert s = some e) :
    Residency (l.evict s) jobs ∧ (l.evict s).slotExpert = update l.slotExpert s none ∧
      (l.evict s).expertSlot = update l.expertSlot e none := by
  have hexpertSlot : (l.evict s).expertSlot = update l.expertSlot e none := by
    unfold Layer.evict
    rw [hslot]
  have hslotExpert : (l.evict s).slotExpert = update l.slotExpert s none := rfl
  refine ⟨?_, hslotExpert, hexpertSlot⟩
  constructor
  case inverse =>
    intro s' e'
    rw [hslotExpert, hexpertSlot]
    simp only [Function.update_apply]
    by_cases hs : s' = s
    · subst hs
      rw [if_pos rfl]
      refine iff_of_false nofun fun hold => ?_
      split at hold
      · nomatch hold
      · rename_i hne
        exact hne (some.inj (((h.inverse s' e').mpr hold).symm.trans hslot))
    · rw [if_neg hs]
      split
      · rename_i heq
        subst heq
        refine iff_of_false (fun hold => hs ?_) nofun
        exact some.inj (((h.inverse s' e').mp hold).symm.trans ((h.inverse s e').mp hslot))
      · exact h.inverse s' e'
  case bounds =>
    intro s' e' hs
    rw [hslotExpert] at hs
    rw [Function.update_apply] at hs
    split at hs
    · nomatch hs
    · exact h.bounds s' e' hs
  case jobBounds => exact h.jobBounds
  case slots => exact h.slots
  case experts => exact h.experts
  case inFlight => exact h.inFlight
  case pending => exact h.pending
  case empty =>
    intro j hj
    rw [hslotExpert]
    rw [Function.update_apply]
    split
    · rfl
    · exact h.empty j hj
  case absent =>
    intro j hj
    rw [hexpertSlot]
    rw [Function.update_apply]
    split
    · rfl
    · exact h.absent j hj

/-! ## What is in the slots -/

theorem PoolOk.congr (h : PoolOk l completed) (hslot : l'.slotExpert = l.slotExpert) (hpool : l'.pool = l.pool) :
    PoolOk l' completed where
  resident := by
    rw [hslot, hpool]
    exact h.resident
  completed := by
    rw [hpool]
    exact h.completed

theorem PoolOk.publish (h : PoolOk l (j :: completed)) : PoolOk (l.publish clock j.expert j.slot) completed where
  resident s e hs := by
    have hslotExpert : (l.publish clock j.expert j.slot).slotExpert = update l.slotExpert j.slot (some j.expert) := rfl
    rw [hslotExpert, Function.update_apply] at hs
    split at hs
    · rename_i heq
      subst heq
      obtain rfl := some.inj hs
      exact h.completed j mem_cons_self
    · exact h.resident s e hs
  completed k hk := h.completed k (mem_cons_of_mem j hk)

theorem PoolOk.evict (h : PoolOk l completed) : PoolOk (l.evict s) completed where
  resident s' e hs := by
    have hslotExpert : (l.evict s).slotExpert = update l.slotExpert s none := rfl
    rw [hslotExpert, Function.update_apply] at hs
    split at hs
    · nomatch hs
    · exact h.resident s' e hs
  completed := h.completed

theorem PoolOk.schedule (h : PoolOk l completed) : PoolOk (l.schedule e s) completed := ⟨h.resident, h.completed⟩

end Layer

end LlamaCpp.MoeCache
