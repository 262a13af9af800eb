import LlamaCpp.Server.Guards

/-!
# Tasks for a sleeping queue

A thread gives up its guard before it posts.  If the queue goes to sleep in between, nothing wakes it for
the task (`stranded_between_release_and_post`); the same holds for a cancellation that is posted while the
queue sleeps.  In runs without such steps (`Timely`) no task is stranded.
-/

namespace LlamaCpp.Server

open Option

/-- The thread is on its way through `ctx_guard_enter` and has not asked the queue to wake up. -/
def Reader.toRequest (r : Reader) : Bool :=
  match r.pc with
  | .entering _ | .holdWait _ => true
  | _ => false

/-- The queue thread sleeps, and nobody has asked it to wake up. -/
def System.Asleep (s : System) : Prop := s.pc = .parked ∧ s.q.reqStopSleeping = false

/-- The queue sleeps over a task. -/
def Stranded (s : System) : Prop :=
  s.Asleep ∧ s.q.queueTasks ≠ [] ∧ ∀ r ∈ s.readers, r.toRequest = false

/-- The loop that waits for tasks decides to sleep. -/
def System.FallsAsleep (s : System) : Prop :=
  s.q.running = true ∧ s.q.queueTasks = [] ∧ s.q.shouldSleep s.now s.idleSleepMs = true ∧ s.q.nCtxGuards = 0

/-- The thread is between `ctx_guard_release` and `post`. -/
def Reader.Posting (r : Reader) : Prop := ∃ tasks front, r.pc = .posting tasks front

/-- The queue does not fall asleep while a thread is between `ctx_guard_release` and `post`, and no reader cancels
its tasks while it is asleep. -/
def Timely (s : System) : Action → Prop
  | .loop .check => s.FallsAsleep → ∀ r ∈ s.readers, ¬r.Posting
  | .reader i .stop => s.Asleep → ∀ r, s.readers[i]? = some r → r.hasNext = false
  | _ => True

/-! ## The invariant -/

/-- While the queue is asleep or falls asleep, it has no tasks, and no thread is about to post one. -/
structure Quiet (s : System) : Prop where
  guarded : Guarded s
  quiet : s.pc = .callback true ∨ s.Asleep → s.q.queueTasks = [] ∧ ∀ r ∈ s.readers, ¬r.Posting

variable {s : System}

theorem quiet_of_awake (h : Guarded s) (hcallback : s.pc ≠ .callback true) (hparked : s.pc ≠ .parked) :
    Quiet s := ⟨h, fun hasleep => (hasleep.elim hcallback fun hasleep => hparked hasleep.1).elim⟩

theorem enterLoop_quiet (r : Reader) (q : ServerQueue) (timed : Bool) :
    (r.enterLoop q timed).1.queueTasks = q.queueTasks ∧ ¬(r.enterLoop q timed).2.Posting := by
  unfold Reader.enterLoop ServerQueue.ctxGuardEnter
  unfold Reader.Posting
  cases q.ctxHold with
  | true => exact ⟨rfl, fun ⟨_, _, h⟩ => nomatch h⟩
  | false => cases q.sleeping <;> exact ⟨rfl, fun ⟨_, _, h⟩ => nomatch h⟩

/-- A thread that neither has a guard nor is about to post does not post. -/
theorem step_quiet {r r' : Reader} {q q' : ServerQueue} {now : Int} {a : ReaderAction} (hguard : r.hasCtxGuard = false)
    (hposting : ¬r.Posting) (hstop : a = .stop → r.hasNext = false) (h : r.step q now a = some (q', r')) :
    q'.queueTasks = q.queueTasks ∧ ¬r'.Posting := by
  have henter : ∀ timed, some (r.enterLoop q timed) = some (q', r') → q'.queueTasks = q.queueTasks ∧ ¬r'.Posting := by
    intro timed h
    obtain ⟨rfl, rfl⟩ := Prod.mk.inj (some.inj h)
    exact enterLoop_quiet r q timed
  cases a with
  | acquire timed =>
    obtain ⟨-, h⟩ := ite_none_right_eq_some.mp h
    obtain ⟨rfl, rfl⟩ := Prod.mk.inj (some.inj h)
    exact ⟨rfl, by simp [Reader.Posting]⟩
  | enter =>
    cases hpc : r.pc with
    | entering timed =>
      simp only [Reader.step, hpc] at h
      exact henter timed h
    | _ => simp [Reader.step, hpc] at h
  | recheck =>
    cases hpc : r.pc with
    | holdWait timed | sleepWait timed =>
      simp only [Reader.step, hpc] at h
      exact henter timed (ite_none_left_eq_some.mp h).2
    | _ => simp [Reader.step, hpc] at h
  | timeout =>
    cases hpc : r.pc with
    | holdWait timed =>
      cases timed with
      | false => simp [Reader.step, hpc] at h
      | true =>
        simp only [Reader.step, hpc] at h
        split at h
        · obtain ⟨rfl, rfl⟩ := Prod.mk.inj (some.inj h)
          exact ⟨rfl, by simp [Reader.Posting]⟩
        · exact henter true h
    | _ => simp [Reader.step, hpc] at h
  | release =>
    obtain ⟨-, h⟩ := ite_none_right_eq_some.mp h
    unfold Reader.ctxGuardRelease at h
    rw [if_neg (by simp [hguard])] at h
    obtain ⟨rfl, rfl⟩ := Prod.mk.inj (some.inj h)
    exact ⟨rfl, hposting⟩
  | beginPost tasks front =>
    obtain ⟨⟨-, hhas, -⟩, -⟩ := ite_none_right_eq_some.mp h
    rw [hguard] at hhas
    cases hhas
  | post =>
    cases hpc : r.pc with
    | posting tasks front => exact absurd ⟨tasks, front, hpc⟩ hposting
    | _ => simp [Reader.step, hpc] at h
  | receive =>
    obtain ⟨-, h⟩ := ite_none_right_eq_some.mp h
    obtain ⟨rfl, rfl⟩ := Prod.mk.inj (some.inj h)
    exact ⟨rfl, hposting⟩
  | stop =>
    obtain ⟨-, h⟩ := ite_none_right_eq_some.mp h
    rw [hstop rfl, if_neg Bool.false_ne_true] at h
    obtain ⟨rfl, rfl⟩ := Prod.mk.inj (some.inj h)
    exact ⟨rfl, hposting⟩

/-- While the queue is asleep, no reader has a guard. -/
theorem Guarded.no_guard (h : Guarded s) (hparked : s.pc = .parked) {r : Reader} (hr : r ∈ s.readers) :
    r.hasCtxGuard = false := by
  have hzero := h.sleeping (h.parked hparked)
  have hcount := h.count
  refine Bool.eq_false_iff.mpr fun hguard => ?_
  have hpos := guardCount_pos hr hguard
  omega

/-- A step of the queue thread that ends asleep, or falls asleep. -/
theorem loop_quiet {s' : System} {a : LoopAction} (h : Quiet s) (htimely : Timely s (.loop a))
    (hstep : s.loopStep a = some s') (hasleep : s'.pc = .callback true ∨ s'.Asleep) :
    s'.q.queueTasks = [] ∧ ∀ r ∈ s'.readers, ¬r.Posting := by
  have hcallback : ∀ {q : ServerQueue} {hold : HoldPc}, s.inCallback = true →
      ({ s with q := q, hold := hold } : System).pc = .callback true ∨ ({ s with q := q, hold := hold } : System).Asleep →
      False := by
    intro q hold hin hasleep
    obtain ⟨hlocked, hparked⟩ := inCallback_pc hin
    exact hasleep.elim (fun hpc => hlocked ⟨true, hpc⟩) fun hasleep => hparked hasleep.1
  cases a with
  | take =>
    obtain ⟨⟨hpc, -⟩, hstep⟩ := ite_none_right_eq_some.mp hstep
    split at hstep
    · obtain rfl := some.inj hstep
      exact absurd hasleep (by simp [System.Asleep])
    · split at hstep
      all_goals
        obtain rfl := some.inj hstep
        exact absurd hasleep (by simp [System.Asleep, hpc])
  | updated =>
    obtain ⟨-, hstep⟩ := ite_none_right_eq_some.mp hstep
    obtain rfl := some.inj hstep
    exact absurd hasleep (by simp [System.Asleep])
  | check =>
    obtain ⟨hpc, hstep⟩ := ite_none_right_eq_some.mp hstep
    split at hstep
    · obtain rfl := some.inj hstep
      exact absurd hasleep (by simp [System.Asleep])
    · next hidle =>
      rw [not_or, not_not] at hidle
      split at hstep
      · next hsleep =>
        obtain rfl := some.inj hstep
        exact ⟨hidle.2, htimely ⟨by simpa using hidle.1, hidle.2, hsleep⟩⟩
      · obtain rfl := some.inj hstep
        exact absurd hasleep (by simp [System.Asleep, hpc])
  | callbackDone =>
    cases hpc : s.pc with
    | callback sleeping =>
      cases sleeping with
      | true =>
        simp only [System.loopStep, hpc] at hstep
        obtain rfl := some.inj hstep
        exact h.quiet (.inl hpc)
      | false =>
        simp only [System.loopStep, hpc] at hstep
        obtain rfl := some.inj hstep
        exact absurd hasleep (by simp [System.Asleep])
    | _ => simp [System.loopStep, hpc] at hstep
  | wake =>
    obtain ⟨hpc, hstep⟩ := ite_none_right_eq_some.mp hstep
    split at hstep
    · obtain rfl := some.inj hstep
      exact absurd hasleep (by simp [System.Asleep])
    · obtain ⟨-, hstep⟩ := ite_none_right_eq_some.mp hstep
      obtain rfl := some.inj hstep
      exact absurd hasleep (by simp [System.Asleep])
  | post task front =>
    obtain ⟨hin, hstep⟩ := ite_none_right_eq_some.mp hstep
    obtain ⟨q, -, rfl⟩ := map_eq_some_iff.mp hstep
    exact (hcallback hin hasleep).elim
  | deferTask task | popDeferredTask idSlot | holdBegin | holdEnd =>
    obtain ⟨hin, hstep⟩ := ite_none_right_eq_some.mp hstep
    obtain rfl := some.inj hstep
    exact (hcallback hin hasleep).elim
  | holdRecheck | holdTimeout =>
    obtain ⟨-, hstep⟩ := ite_none_right_eq_some.mp hstep
    obtain rfl := some.inj hstep
    exact h.quiet hasleep

theorem Quiet.step {s' : System} {a : Action} (h : Quiet s) (htimely : Timely s a)
    (hstep : s.step a = some s') : Quiet s' := by
  refine ⟨h.guarded.step hstep, fun hasleep => ?_⟩
  cases a with
  | tick ms =>
    obtain rfl := some.inj hstep
    exact h.quiet hasleep
  | newReader =>
    obtain rfl := some.inj hstep
    obtain ⟨hnone, hposting⟩ := h.quiet hasleep
    refine ⟨hnone, fun r hr => ?_⟩
    rcases List.mem_append.mp hr with hold | hnew
    · exact hposting r hold
    · obtain rfl := List.mem_singleton.mp hnew
      exact fun ⟨_, _, hpc⟩ => nomatch hpc
  | reader i a =>
    obtain ⟨hfree, hstep⟩ := ite_none_left_eq_some.mp hstep
    cases hi : s.readers[i]? with
    | none =>
      rw [hi] at hstep
      cases hstep
    | some r =>
      rw [hi] at hstep
      obtain ⟨⟨q', r'⟩, hr, rfl⟩ := map_eq_some_iff.mp hstep
      have hmem := List.mem_of_getElem? hi
      have hreader := reader_step (h.guarded.outside r hmem) hr
      rcases hasleep with hcallback | ⟨hparked, hreq⟩
      · exact absurd ⟨true, hcallback⟩ hfree
      · -- the queue was asleep before
        have hbefore : s.Asleep := by
          refine ⟨hparked, Bool.eq_false_iff.mpr fun hrequested => ?_⟩
          rw [hreader.request hrequested] at hreq
          cases hreq
        obtain ⟨hnone, hposting⟩ := h.quiet (.inr hbefore)
        have hstop : a = .stop → r.hasNext = false := by
          rintro rfl
          exact htimely hbefore r hi
        obtain ⟨htasks, hpost⟩ := step_quiet (h.guarded.no_guard hparked hmem) (hposting r hmem) hstop hr
        refine ⟨htasks.trans hnone, fun r'' hr'' => ?_⟩
        rcases List.mem_or_eq_of_mem_set hr'' with hold | rfl
        · exact hposting r'' hold
        · exact hpost
  | loop a => exact loop_quiet h htimely hstep hasleep
  | terminate =>
    obtain ⟨-, hstep⟩ := ite_none_left_eq_some.mp hstep
    obtain rfl := some.inj hstep
    exact h.quiet hasleep

/-! ## Every run -/

theorem not_stranded {idleSleepMs : Int} {s : System} (h : Runs.Reaches System.step Timely (initial idleSleepMs) s) :
    ¬Stranded s := by
  have hquiet : Quiet s :=
    Runs.Reaches.inv (fun _ _ _ hs htimely hstep => Quiet.step hs htimely hstep)
      (quiet_of_awake (guarded_initial idleSleepMs) nofun nofun) h
  exact fun ⟨hasleep, htasks, _⟩ => htasks (hquiet.quiet (.inr hasleep)).1

/-- A thread posts a task, and the queue takes it and waits for a second. -/
def servedRun : List Action :=
  [.newReader, .reader 0 (.acquire false), .reader 0 .enter, .reader 0 (.beginPost [{ id := 0 }] false), .reader 0 .post,
    .loop .take, .loop .take, .loop .updated, .tick 1000]

def servedSystem : System where
  q := { running := true }
  now := 1000
  idleSleepMs := 1000
  pc := .waiting
  readers := [{ idTasks := [0] }]

/-- It goes to sleep. -/
def sleepingSystem : System where
  q := { running := true, sleeping := true }
  now := 1000
  idleSleepMs := 1000
  pc := .parked
  readers := [{ idTasks := [0] }]

theorem not_stranded_served : Reachable 1000 sleepingSystem ∧ sleepingSystem.Asleep ∧ ¬Stranded sleepingSystem := by
  have hrun : servedRun.foldlM System.step (initial 1000) = some servedSystem := by decide
  have hfirst : ∀ a ∈ servedRun, ∀ s, Timely s a := by simp [servedRun, Timely]
  have hcheck : Timely servedSystem (.loop .check) := by simp [Timely, servedSystem, Reader.Posting]
  have hsleep : servedSystem.step (.loop .check) =
      some { servedSystem with q := { servedSystem.q with sleeping := true }, pc := .callback true } := by decide
  have hdone : Timely { servedSystem with q := { servedSystem.q with sleeping := true }, pc := .callback true }
      (.loop .callbackDone) := trivial
  have hslept : Runs.Reaches System.step Timely (initial 1000) sleepingSystem :=
    ((Runs.Reaches.refl.ofList hfirst hrun).step hcheck hsleep).step hdone rfl
  have hall : (servedRun ++ [Action.loop .check, Action.loop .callbackDone]).foldlM System.step (initial 1000) =
      some sleepingSystem := by decide
  refine ⟨?_, ⟨rfl, rfl⟩, not_stranded hslept⟩
  exact Runs.Reaches.refl.ofList (fun _ _ _ => trivial) hall

/-- The queue falls asleep between the release of the guard and the post. -/
def strandedRun : List Action :=
  [.newReader, .reader 0 (.acquire false), .reader 0 .enter, .loop .take, .loop .updated, .tick 1000,
    .reader 0 (.beginPost [{ id := 0 }] false), .loop .check, .loop .callbackDone, .reader 0 .post]

def strandedSystem : System where
  q := { running := true, sleeping := true, timeLastTask := 1000, queueTasks := [{ id := 0 }] }
  now := 1000
  idleSleepMs := 1000
  pc := .parked
  readers := [{ idTasks := [0] }]

theorem stranded_between_release_and_post : ∃ s, Reachable 1000 s ∧ Stranded s := by
  have hrun : strandedRun.foldlM System.step (initial 1000) = some strandedSystem := by decide
  refine ⟨strandedSystem, Runs.Reaches.refl.ofList (fun _ _ _ => trivial) hrun, ⟨rfl, rfl⟩, ?_, ?_⟩
  · simp [strandedSystem]
  · simp [strandedSystem, Reader.toRequest]

end LlamaCpp.Server
