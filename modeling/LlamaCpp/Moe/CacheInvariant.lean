import LlamaCpp.Moe.Admission

/-!
# What the two threads keep

A job is scheduled, waits in `todo`, is in the worker's batch, then in `done`, and is published by a later `step`.
`Cache.jobs` are the jobs in all these places.  Every action of the main thread and of the worker keeps `CacheInv`: each
layer's arrays agree with its jobs, its tables with its arrays, and its pool with its resident experts and with the jobs
whose copies are done.
-/

namespace LlamaCpp.MoeCache

open List

open Function (update)

/-! ## The jobs of a layer -/

def jobsOf (li : Nat) (jobs : List Job) : List Job := jobs.filter (·.layer = li)

section Jobs

variable {li : Nat} {j : Job} {jobs jobs' : List Job}

@[simp]
theorem jobsOf_append (li : Nat) (jobs jobs' : List Job) : jobsOf li (jobs ++ jobs') = jobsOf li jobs ++ jobsOf li jobs' :=
  filter_append jobs jobs'

theorem jobsOf_cons (h : j.layer = li) : jobsOf li (j :: jobs) = j :: jobsOf li jobs :=
  filter_cons_of_pos (decide_eq_true h)

theorem jobsOf_cons_of_ne (h : j.layer ≠ li) : jobsOf li (j :: jobs) = jobsOf li jobs :=
  filter_cons_of_neg (by simpa using h)

theorem mem_jobsOf : j ∈ jobsOf li jobs ↔ j ∈ jobs ∧ j.layer = li := by
  unfold jobsOf
  rw [mem_filter, decide_eq_true_eq]

theorem jobsOf_perm (h : jobs.Perm jobs') : (jobsOf li jobs).Perm (jobsOf li jobs') := h.filter _

end Jobs

theorem PoolOk.mono {l : Layer} {completed completed' : List Job} (h : PoolOk l completed)
    (hsub : ∀ j ∈ completed', j ∈ completed) : PoolOk l completed' :=
  ⟨h.resident, fun j hj => h.completed j (hsub j hj)⟩

/-! ## Copies -/

section Copies

variable {layers : Nat → Layer} {j : Job} {content : SlotContent} {jobs completed : List Job}

theorem write_of_ne {li : Nat} (h : j.layer ≠ li) : Cache.write layers j content li = layers li :=
  Function.update_of_ne (Ne.symm h) _ layers

theorem write_self : Cache.write layers j content j.layer =
    { layers j.layer with pool := update (layers j.layer).pool j.slot content } :=
  Function.update_self j.layer _ layers

/-- A copy does not touch the arrays. -/
theorem write_same (li : Nat) : SameResidency (layers li) (Cache.write layers j content li) := by
  by_cases h : j.layer = li
  · subst h
    rw [write_self]
    exact ⟨rfl, rfl, rfl, rfl, rfl, rfl, rfl, rfl⟩
  · rw [write_of_ne h]
    exact SameResidency.refl _

/-- A copy to the slot of a job does not touch resident experts and completed jobs. -/
theorem PoolOk.write {l : Layer} (h : PoolOk l completed) (hres : Residency l (j :: jobs)) (hsub : ∀ k ∈ completed, k ∈ jobs) :
    PoolOk { l with pool := update l.pool j.slot content } completed where
  resident s e hs := by
    have hne : s ≠ j.slot := by
      rintro rfl
      exact nomatch (hres.empty j mem_cons_self).symm.trans hs
    show update l.pool j.slot content s = .weights e
    rw [Function.update_of_ne hne]
    exact h.resident s e hs
  completed k hk := by
    have hnodup := hres.slots
    rw [map_cons, nodup_cons] at hnodup
    have hne : k.slot ≠ j.slot := fun heq => hnodup.1 (List.mem_map.mpr ⟨k, hsub k hk, heq⟩)
    show update l.pool j.slot content k.slot = .weights k.expert
    rw [Function.update_of_ne hne]
    exact h.completed k hk

theorem PoolOk.writeWeights {l : Layer} (h : PoolOk l completed) (hres : Residency l (j :: jobs))
    (hsub : ∀ k ∈ completed, k ∈ jobs) :
    PoolOk { l with pool := update l.pool j.slot (.weights j.expert) } (j :: completed) where
  resident := (h.write hres hsub).resident
  completed k hk := by
    rcases mem_cons.mp hk with rfl | hk
    · exact Function.update_self k.slot _ l.pool
    · exact (h.write hres hsub).completed k hk

theorem writeAll_spec {batch rest : List Job} (hres : ∀ li, Residency (layers li) (jobsOf li (batch ++ rest)))
    (hpool : ∀ li, PoolOk (layers li) (jobsOf li completed)) (hsub : ∀ j ∈ completed, j ∈ rest) (li : Nat) :
    Residency (Cache.writeAll layers batch li) (jobsOf li (batch ++ rest)) ∧
      (TablesOk (layers li) → TablesOk (Cache.writeAll layers batch li)) ∧
        PoolOk (Cache.writeAll layers batch li) (jobsOf li (batch ++ completed)) := by
  induction batch generalizing layers rest completed with
  | nil => exact ⟨hres li, fun h => h, hpool li⟩
  | cons j batch ih =>
    have hres' (li) : Residency (Cache.write layers j (.weights j.expert) li) (jobsOf li (batch ++ j :: rest)) :=
      ((hres li).congr (write_same li)).perm (jobsOf_perm perm_middle.symm)
    have hpool' (li) : PoolOk (Cache.write layers j (.weights j.expert) li) (jobsOf li (j :: completed)) := by
      by_cases hj : j.layer = li
      · subst hj
        have hjob := hres j.layer
        rw [cons_append, jobsOf_cons rfl] at hjob
        rw [write_self, jobsOf_cons rfl]
        refine (hpool j.layer).writeWeights hjob fun k hk => ?_
        rw [mem_jobsOf] at hk ⊢
        exact ⟨mem_append_right batch (hsub k hk.1), hk.2⟩
      · rw [write_of_ne hj, jobsOf_cons_of_ne hj]
        exact hpool li
    have hsub' : ∀ k ∈ j :: completed, k ∈ j :: rest := fun k hk =>
      mem_cons.mpr ((mem_cons.mp hk).imp_right (hsub k))
    obtain ⟨hresidency, htables, hdone⟩ := ih hres' hpool' hsub'
    refine ⟨hresidency.perm (jobsOf_perm perm_middle), fun h => htables (h.congr (write_same li)),
      hdone.mono fun k hk => ?_⟩
    exact (jobsOf_perm perm_middle).mem_iff.mpr hk

end Copies

/-! ## Publishing -/

theorem publishAll_spec {clock : Nat} {layers : Nat → Layer} {finished rest completed : List Job}
    (hres : ∀ li, Residency (layers li) (jobsOf li (finished ++ rest)))
    (hpool : ∀ li, PoolOk (layers li) (jobsOf li (finished ++ completed))) (li : Nat) :
    Residency (Cache.publishAll clock layers finished li) (jobsOf li rest) ∧
      PoolOk (Cache.publishAll clock layers finished li) (jobsOf li completed) ∧
        ((∀ j ∈ finished, j.layer ≠ li) → Cache.publishAll clock layers finished li = layers li) := by
  induction finished generalizing layers with
  | nil => exact ⟨hres li, hpool li, fun _ => rfl⟩
  | cons j finished ih =>
    let layers' := update layers j.layer ((layers j.layer).publish clock j.expert j.slot)
    have hself : layers' j.layer = (layers j.layer).publish clock j.expert j.slot := Function.update_self _ _ _
    have hother {li : Nat} (h : j.layer ≠ li) : layers' li = layers li := Function.update_of_ne (Ne.symm h) _ _
    have hres' (li) : Residency (layers' li) (jobsOf li (finished ++ rest)) := by
      have hjob := hres li
      rw [cons_append] at hjob
      by_cases hj : j.layer = li
      · subst hj
        rw [jobsOf_cons rfl] at hjob
        rw [hself]
        exact hjob.publish
      · rw [jobsOf_cons_of_ne hj] at hjob
        rw [hother hj]
        exact hjob
    have hpool' (li) : PoolOk (layers' li) (jobsOf li (finished ++ completed)) := by
      have hjob := hpool li
      rw [cons_append] at hjob
      by_cases hj : j.layer = li
      · subst hj
        rw [jobsOf_cons rfl] at hjob
        rw [hself]
        exact hjob.publish
      · rw [jobsOf_cons_of_ne hj] at hjob
        rw [hother hj]
        exact hjob
    obtain ⟨hresidency, hcontents, hsame⟩ := ih hres' hpool'
    refine ⟨hresidency, hcontents, fun hnone => ?_⟩
    exact (hsame fun k hk => hnone k (mem_cons_of_mem j hk)).trans (hother (hnone j mem_cons_self))

end LlamaCpp.MoeCache
