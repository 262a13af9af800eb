import LlamaCpp.Server.Queue
import Mathlib.Data.List.Count

/-!
# The guards of the request threads

`n_ctx_guards` counts the readers with a guard (`Guarded.count`).  While the queue sleeps, and while the
queue thread has what `ctx_hold_begin` gave it, the count is zero: a thread enters only if neither is the
case, and both begin with a count of zero.
-/

namespace LlamaCpp.Server

open List Option

/-- How many readers have a guard. -/
def guardCount (readers : List Reader) : Nat := readers.countP (·.hasCtxGuard)

/-- A thread in `ctx_guard_enter`, or on its way to `post`, has no guard. -/
def Reader.Outside (r : Reader) : Prop := r.pc ≠ .ready → r.hasCtxGuard = false

structure Guarded (s : System) : Prop where
  count : s.q.nCtxGuards = guardCount s.readers
  outside : ∀ r ∈ s.readers, r.Outside
  sleeping : s.q.sleeping = true → s.q.nCtxGuards = 0
  hold : s.hold ≠ .idle → s.q.ctxHold = true
  held : s.hold = .held → s.q.nCtxGuards = 0
  callback : s.locked → s.q.sleeping = true
  parked : s.pc = .parked → s.q.sleeping = true

/-- A system before `start_loop` has done anything. -/
def initial (idleSleepMs : Int) : System := { idleSleepMs := idleSleepMs }

theorem guarded_initial (idleSleepMs : Int) : Guarded (initial idleSleepMs) where
  count := rfl
  outside _ hr := absurd hr not_mem_nil
  sleeping := nofun
  hold h := absurd rfl h
  held := nofun
  callback h := nomatch h
  parked := nofun

/-! ## What the operations of the queue leave alone -/

structure SameGuards (q q' : ServerQueue) : Prop where
  nCtxGuards : q'.nCtxGuards = q.nCtxGuards
  sleeping : q'.sleeping = q.sleeping
  ctxHold : q'.ctxHold = q.ctxHold
  reqStopSleeping : q'.reqStopSleeping = q.reqStopSleeping

theorem SameGuards.trans {q q' q'' : ServerQueue} (h : SameGuards q q') (h' : SameGuards q' q'') : SameGuards q q'' :=
  ⟨h'.nCtxGuards.trans h.nCtxGuards, h'.sleeping.trans h.sleeping, h'.ctxHold.trans h.ctxHold,
    h'.reqStopSleeping.trans h.reqStopSleeping⟩

theorem sameGuards_pushTask (q : ServerQueue) (front : Bool) (task : ServerTask) :
    SameGuards q (q.pushTask front task) := by
  unfold ServerQueue.pushTask
  cases task.isCancel <;> exact ⟨rfl, rfl, rfl, rfl⟩

theorem sameGuards_pushNumbered (q : ServerQueue) (front : Bool) (task : ServerTask) :
    SameGuards q (q.pushNumbered front task) := by
  unfold ServerQueue.pushNumbered
  split
  · have hid : SameGuards q { q with id := q.id + 1 } := ⟨rfl, rfl, rfl, rfl⟩
    exact hid.trans (sameGuards_pushTask _ front _)
  · exact sameGuards_pushTask q front task

theorem sameGuards_postTasks (q : ServerQueue) (now : Int) (tasks : List ServerTask) (front : Bool) :
    SameGuards q (q.postTasks now tasks front) := by
  have hloop : SameGuards q (tasks.foldl (fun q task => q.pushNumbered front task) q) := by
    induction tasks generalizing q with
    | nil => exact ⟨rfl, rfl, rfl, rfl⟩
    | cons task tasks ih => exact (sameGuards_pushNumbered q front task).trans (ih _)
  exact hloop.trans ⟨rfl, rfl, rfl, rfl⟩

theorem sameGuards_post {q q' : ServerQueue} {now : Int} {task : ServerTask} {front : Bool}
    (h : q.post now task front = some q') : SameGuards q q' := by
  unfold ServerQueue.post at h
  split at h
  · cases h
  · obtain rfl := some.inj h
    exact (sameGuards_pushTask q front task).trans ⟨rfl, rfl, rfl, rfl⟩

theorem sameGuards_popDeferredTask (q : ServerQueue) (now idSlot : Int) : SameGuards q (q.popDeferredTask now idSlot) := by
  unfold ServerQueue.popDeferredTask
  dsimp only
  split <;> exact ⟨rfl, rfl, rfl, rfl⟩

/-! ## The steps of a request thread -/

inductive GuardStep (q q' : ServerQueue) (r r' : Reader) : Prop where
  /-- Nothing. -/
  | none (hq : q'.nCtxGuards = q.nCtxGuards) (hr : r'.hasCtxGuard = r.hasCtxGuard)
  /-- The thread gets a guard. -/
  | enter (hhold : q.ctxHold = false) (hsleep : q.sleeping = false) (hr : r.hasCtxGuard = false)
      (hq : q'.nCtxGuards = q.nCtxGuards + 1) (hr' : r'.hasCtxGuard = true)
  /-- The thread gives its guard up. -/
  | exit (hr : r.hasCtxGuard = true) (hq : q'.nCtxGuards = q.nCtxGuards - 1) (hr' : r'.hasCtxGuard = false)

/-- A step of a request thread. -/
structure ReaderStep (q q' : ServerQueue) (r r' : Reader) : Prop where
  guards : GuardStep q q' r r'
  outside : r'.Outside
  sleeping : q'.sleeping = q.sleeping
  ctxHold : q'.ctxHold = q.ctxHold
  request : q.reqStopSleeping = true → q'.reqStopSleeping = true

section ReaderSteps

variable {r r' : Reader} {q q' : ServerQueue} {now : Int}

theorem enterLoop_step (hr : r.hasCtxGuard = false) (timed : Bool) :
    ReaderStep q (r.enterLoop q timed).1 r (r.enterLoop q timed).2 := by
  unfold Reader.enterLoop ServerQueue.ctxGuardEnter
  cases hhold : q.ctxHold with
  | true => exact ⟨.none rfl rfl, fun _ => hr, rfl, rfl, id⟩
  | false =>
    cases hsleep : q.sleeping with
    | true => exact ⟨.none rfl rfl, fun _ => hr, hsleep.symm, hhold.symm, fun _ => rfl⟩
    | false => exact ⟨.enter hhold hsleep hr rfl rfl, fun h => absurd rfl h, hsleep.symm, hhold.symm, id⟩

theorem ctxGuardRelease_step (hout : r.Outside) :
    ReaderStep q (r.ctxGuardRelease q).1 r (r.ctxGuardRelease q).2 ∧ (r.ctxGuardRelease q).2.hasCtxGuard = false := by
  unfold Reader.ctxGuardRelease
  cases hr : r.hasCtxGuard with
  | true => exact ⟨⟨.exit hr rfl rfl, fun _ => rfl, rfl, rfl, id⟩, rfl⟩
  | false => exact ⟨⟨.none rfl rfl, hout, rfl, rfl, id⟩, hr⟩

/-- A step that only posts, or only changes what the guards are not about. -/
theorem readerStep_of_same (hq : SameGuards q q') (hr : r'.hasCtxGuard = r.hasCtxGuard) (hout : r'.Outside) :
    ReaderStep q q' r r' := ⟨.none hq.nCtxGuards hr, hout, hq.sleeping, hq.ctxHold, fun h => hq.reqStopSleeping.trans h⟩

theorem reader_step {a : ReaderAction} (hout : r.Outside) (h : r.step q now a = some (q', r')) :
    ReaderStep q q' r r' := by
  have hrefl : SameGuards q q := ⟨rfl, rfl, rfl, rfl⟩
  have henter : ∀ timed, r.pc ≠ .ready → some (r.enterLoop q timed) = some (q', r') → ReaderStep q q' r r' := by
    intro timed hpc h
    obtain ⟨rfl, rfl⟩ := Prod.mk.inj (some.inj h)
    exact enterLoop_step (hout hpc) timed
  cases a with
  | acquire timed =>
    obtain ⟨⟨-, hguard⟩, h⟩ := ite_none_right_eq_some.mp h
    obtain ⟨rfl, rfl⟩ := Prod.mk.inj (some.inj h)
    exact readerStep_of_same hrefl rfl fun _ => Bool.eq_false_iff.mpr hguard
  | enter =>
    cases hpc : r.pc with
    | entering timed =>
      simp only [Reader.step, hpc] at h
      exact henter timed (by simp [hpc]) h
    | _ => simp [Reader.step, hpc] at h
  | recheck =>
    cases hpc : r.pc with
    | holdWait timed | sleepWait timed =>
      simp only [Reader.step, hpc] at h
      exact henter timed (by simp [hpc]) (ite_none_left_eq_some.mp h).2
    | _ => simp [Reader.step, hpc] at h
  | timeout =>
    cases hpc : r.pc with
    | holdWait timed =>
      cases timed with
      | false => simp [Reader.step, hpc] at h
      | true =>
        simp only [Reader.step, hpc] at h
        split at h
        · obtain ⟨rfl, rfl⟩ := Prod.mk.inj (some.inj h)
          exact readerStep_of_same hrefl rfl fun hready => absurd rfl hready
        · exact henter true (by simp [hpc]) h
    | _ => simp [Reader.step, hpc] at h
  | release =>
    obtain ⟨-, h⟩ := ite_none_right_eq_some.mp h
    obtain ⟨rfl, rfl⟩ := Prod.mk.inj (some.inj h)
    exact (ctxGuardRelease_step hout).1
  | beginPost tasks front =>
    obtain ⟨-, h⟩ := ite_none_right_eq_some.mp h
    obtain ⟨rfl, rfl⟩ := Prod.mk.inj (some.inj h)
    obtain ⟨hstep, hnone⟩ := @ctxGuardRelease_step r q hout
    refine ⟨?_, fun _ => hnone, hstep.sleeping, hstep.ctxHold, hstep.request⟩
    cases hstep.guards with
    | none hq hr => exact .none hq hr
    | enter hhold hsleep hr hq hr' => exact .enter hhold hsleep hr hq hr'
    | exit hr hq hr' => exact .exit hr hq hr'
  | post =>
    cases hpc : r.pc with
    | posting tasks front =>
      simp only [Reader.step, hpc] at h
      obtain ⟨rfl, rfl⟩ := Prod.mk.inj (some.inj h)
      exact readerStep_of_same (sameGuards_postTasks q now tasks front) rfl fun hready => absurd rfl hready
    | _ => simp [Reader.step, hpc] at h
  | receive =>
    obtain ⟨-, h⟩ := ite_none_right_eq_some.mp h
    obtain ⟨rfl, rfl⟩ := Prod.mk.inj (some.inj h)
    exact readerStep_of_same hrefl rfl hout
  | stop =>
    obtain ⟨-, h⟩ := ite_none_right_eq_some.mp h
    split at h
    · obtain ⟨rfl, rfl⟩ := Prod.mk.inj (some.inj h)
      exact readerStep_of_same (sameGuards_postTasks q now _ true) rfl hout
    · obtain ⟨rfl, rfl⟩ := Prod.mk.inj (some.inj h)
      exact readerStep_of_same hrefl rfl hout

end ReaderSteps

/-! ## The steps of the system -/

theorem guardCount_set {readers : List Reader} {i : Nat} {r r' : Reader} (hi : readers[i]? = some r) :
    guardCount (readers.set i r') = guardCount readers - (if r.hasCtxGuard then 1 else 0) + if r'.hasCtxGuard then 1 else 0 := by
  obtain ⟨hlt, rfl⟩ := List.getElem?_eq_some_iff.mp hi
  exact countP_set hlt

theorem guardCount_pos {readers : List Reader} {r : Reader} (hr : r ∈ readers) (hguard : r.hasCtxGuard = true) :
    0 < guardCount readers := countP_pos_iff.mpr ⟨r, hr, hguard⟩

variable {s : System}

/-- A step of a request thread in the system. -/
theorem Guarded.reader (h : Guarded s) {i : Nat} {r r' : Reader} {q' : ServerQueue}
    (hi : s.readers[i]? = some r) (hstep : ReaderStep s.q q' r r') :
    Guarded { s with q := q', readers := s.readers.set i r' } := by
  have hmem := mem_of_getElem? hi
  have hout : ∀ r'' ∈ s.readers.set i r', r''.Outside := by
    intro r'' hr''
    rcases mem_or_eq_of_mem_set hr'' with hold | rfl
    · exact h.outside r'' hold
    · exact hstep.outside
  have hsleep : q'.sleeping = true → q'.nCtxGuards = 0 := by
    intro hsleep
    rw [hstep.sleeping] at hsleep
    have hzero := h.sleeping hsleep
    cases hstep.guards with
    | none hq _ => rw [hq, hzero]
    | enter _ hawake => rw [hsleep] at hawake; cases hawake
    | exit hr =>
      have hpos := guardCount_pos hmem hr
      have hcount := h.count
      omega
  have hheld : s.hold = .held → q'.nCtxGuards = 0 := by
    intro hheld
    have hzero := h.held hheld
    cases hstep.guards with
    | none hq _ => rw [hq, hzero]
    | enter hfree =>
      rw [h.hold (by rw [hheld]; decide)] at hfree
      cases hfree
    | exit hr =>
      have hpos := guardCount_pos hmem hr
      have hcount := h.count
      omega
  refine ⟨?_, hout, hsleep, fun hhold => hstep.ctxHold ▸ h.hold hhold, hheld, fun hc => ?_, fun hp => ?_⟩
  · have hcount := h.count
    rw [guardCount_set hi]
    cases hstep.guards with
    | none hq hr =>
      rw [hq, hr, hcount]
      cases hguard : r.hasCtxGuard with
      | false => rfl
      | true =>
        have hpos := guardCount_pos hmem hguard
        rw [if_pos rfl, Nat.sub_add_cancel hpos]
    | enter _ _ hr hq hr' => simp [hr, hr', hq, hcount]
    | exit hr hq hr' =>
      have hpos := guardCount_pos hmem hr
      simp only [hr, hr', hq, hcount]
      simp
      omega
  · exact hstep.sleeping ▸ h.callback hc
  · exact hstep.sleeping ▸ h.parked hp

/-- A step of the queue thread that leaves the fields of the guards alone. -/
theorem Guarded.sameGuards {s' : System} (h : Guarded s) (hq : SameGuards s.q s'.q)
    (hreaders : s'.readers = s.readers) (hhold : s'.hold = s.hold) (hpc : ¬s'.locked ∧ s'.pc ≠ .parked) :
    Guarded s' where
  count := by rw [hq.nCtxGuards, hreaders, h.count]
  outside := hreaders ▸ h.outside
  sleeping hsleep := hq.nCtxGuards ▸ h.sleeping (hq.sleeping ▸ hsleep)
  hold hne := hq.ctxHold ▸ h.hold (hhold ▸ hne)
  held hheld := hq.nCtxGuards ▸ h.held (hhold ▸ hheld)
  callback hc := absurd hc hpc.1
  parked hp := absurd hp hpc.2

theorem inCallback_pc (h : s.inCallback = true) : ¬s.locked ∧ s.pc ≠ .parked := by
  unfold System.inCallback at h
  unfold System.locked
  cases hpc : s.pc <;> simp_all

theorem Guarded.loop {s' : System} {a : LoopAction} (h : Guarded s) (hstep : s.loopStep a = some s') :
    Guarded s' := by
  cases a with
  | take =>
    obtain ⟨⟨hpc, -⟩, hstep⟩ := ite_none_right_eq_some.mp hstep
    split at hstep
    · obtain rfl := some.inj hstep
      exact h.sameGuards ⟨rfl, rfl, rfl, rfl⟩ rfl rfl ⟨nofun, nofun⟩
    · split at hstep
      · obtain rfl := some.inj hstep
        exact h.sameGuards ⟨rfl, rfl, rfl, rfl⟩ rfl rfl ⟨nofun, nofun⟩
      · obtain rfl := some.inj hstep
        refine h.sameGuards ⟨rfl, rfl, rfl, rfl⟩ rfl rfl ⟨?_, ?_⟩ <;> simp [System.locked, hpc]
  | updated =>
    obtain ⟨-, hstep⟩ := ite_none_right_eq_some.mp hstep
    obtain rfl := some.inj hstep
    exact h.sameGuards ⟨rfl, rfl, rfl, rfl⟩ rfl rfl ⟨nofun, nofun⟩
  | check =>
    obtain ⟨hpc, hstep⟩ := ite_none_right_eq_some.mp hstep
    split at hstep
    · obtain rfl := some.inj hstep
      exact h.sameGuards ⟨rfl, rfl, rfl, rfl⟩ rfl rfl ⟨nofun, nofun⟩
    · split at hstep
      · next hsleep =>
        -- the queue goes to sleep only without guards
        obtain rfl := some.inj hstep
        exact ⟨h.count, h.outside, fun _ => hsleep.2, h.hold, h.held, fun _ => rfl, nofun⟩
      · obtain rfl := some.inj hstep
        exact h
  | callbackDone =>
    cases hpc : s.pc with
    | callback sleeping =>
      have hsleep := h.callback ⟨sleeping, hpc⟩
      cases sleeping with
      | true =>
        simp only [System.loopStep, hpc] at hstep
        obtain rfl := some.inj hstep
        exact ⟨h.count, h.outside, h.sleeping, h.hold, h.held, (fun hc => nomatch hc), fun _ => hsleep⟩
      | false =>
        simp only [System.loopStep, hpc] at hstep
        obtain rfl := some.inj hstep
        exact ⟨h.count, h.outside, nofun, h.hold, h.held, (fun hc => nomatch hc), nofun⟩
    | _ => simp [System.loopStep, hpc] at hstep
  | wake =>
    obtain ⟨hpc, hstep⟩ := ite_none_right_eq_some.mp hstep
    split at hstep
    · obtain rfl := some.inj hstep
      exact h.sameGuards ⟨rfl, rfl, rfl, rfl⟩ rfl rfl ⟨nofun, nofun⟩
    · obtain ⟨-, hstep⟩ := ite_none_right_eq_some.mp hstep
      obtain rfl := some.inj hstep
      exact ⟨h.count, h.outside, h.sleeping, h.hold, h.held, fun _ => h.parked hpc, nofun⟩
  | post task front =>
    obtain ⟨hin, hstep⟩ := ite_none_right_eq_some.mp hstep
    obtain ⟨q, hq, rfl⟩ := map_eq_some_iff.mp hstep
    exact h.sameGuards (sameGuards_post hq) rfl rfl (inCallback_pc hin)
  | deferTask task =>
    obtain ⟨hin, hstep⟩ := ite_none_right_eq_some.mp hstep
    obtain rfl := some.inj hstep
    exact h.sameGuards ⟨rfl, rfl, rfl, rfl⟩ rfl rfl (inCallback_pc hin)
  | popDeferredTask idSlot =>
    obtain ⟨hin, hstep⟩ := ite_none_right_eq_some.mp hstep
    obtain rfl := some.inj hstep
    exact h.sameGuards (sameGuards_popDeferredTask s.q s.now idSlot) rfl rfl (inCallback_pc hin)
  | holdBegin =>
    obtain ⟨hin, hstep⟩ := ite_none_right_eq_some.mp hstep
    obtain ⟨hlocked, hparked⟩ := inCallback_pc hin
    obtain rfl := some.inj hstep
    refine ⟨h.count, h.outside, h.sleeping, fun _ => rfl, fun hheld => ?_, fun hc => absurd hc hlocked,
      fun hp => absurd hp hparked⟩
    exact not_not.mp fun hne => nomatch ite_eq_left_iff.mp hheld hne
  | holdRecheck =>
    obtain ⟨⟨hwaiting, hzero⟩, hstep⟩ := ite_none_right_eq_some.mp hstep
    obtain rfl := some.inj hstep
    exact ⟨h.count, h.outside, h.sleeping, fun _ => h.hold (by rw [hwaiting]; decide), fun _ => hzero, h.callback, h.parked⟩
  | holdTimeout =>
    obtain ⟨hwaiting, hstep⟩ := ite_none_right_eq_some.mp hstep
    obtain rfl := some.inj hstep
    refine ⟨h.count, h.outside, h.sleeping, fun _ => h.hold (by rw [hwaiting]; decide), fun hheld => ?_, h.callback, h.parked⟩
    exact not_not.mp fun hne => nomatch ite_eq_left_iff.mp hheld hne
  | holdEnd =>
    obtain ⟨hin, hstep⟩ := ite_none_right_eq_some.mp hstep
    obtain ⟨hlocked, hparked⟩ := inCallback_pc hin
    obtain rfl := some.inj hstep
    exact ⟨h.count, h.outside, h.sleeping, fun hne => absurd rfl hne, nofun, fun hc => absurd hc hlocked,
      fun hp => absurd hp hparked⟩

theorem Guarded.step {s' : System} {a : Action} (h : Guarded s) (hstep : s.step a = some s') : Guarded s' := by
  cases a with
  | tick ms =>
    obtain rfl := some.inj hstep
    exact ⟨h.count, h.outside, h.sleeping, h.hold, h.held, h.callback, h.parked⟩
  | newReader =>
    obtain rfl := some.inj hstep
    refine ⟨?_, fun r hr => ?_, h.sleeping, h.hold, h.held, h.callback, h.parked⟩
    · unfold guardCount
      rw [countP_append]
      exact h.count
    · rcases List.mem_append.mp hr with hold | hnew
      · exact h.outside r hold
      · obtain rfl := mem_singleton.mp hnew
        exact fun hpc => absurd rfl hpc
  | reader i a =>
    obtain ⟨-, hstep⟩ := ite_none_left_eq_some.mp hstep
    cases hi : s.readers[i]? with
    | none =>
      rw [hi] at hstep
      cases hstep
    | some r =>
      rw [hi] at hstep
      obtain ⟨⟨q', r'⟩, hr, rfl⟩ := map_eq_some_iff.mp hstep
      exact h.reader hi (reader_step (h.outside r (mem_of_getElem? hi)) hr)
  | loop a => exact h.loop hstep
  | terminate =>
    obtain ⟨-, hstep⟩ := ite_none_left_eq_some.mp hstep
    obtain rfl := some.inj hstep
    exact ⟨h.count, h.outside, h.sleeping, h.hold, h.held, h.callback, h.parked⟩

/-! ## Every run -/

/-- The states that any interleaving leads to. -/
abbrev Reachable (idleSleepMs : Int) : System → Prop :=
  Runs.Reaches System.step (fun _ _ => True) (initial idleSleepMs)

theorem guarded_of_reachable {idleSleepMs : Int} (h : Reachable idleSleepMs s) : Guarded s :=
  Runs.Reaches.inv (fun _ _ _ hs _ hstep => Guarded.step hs hstep) (guarded_initial idleSleepMs) h

/-- Nobody has a guard between a `ctx_hold_begin` that returned true and its `ctx_hold_end`, nor during a callback
for the sleeping state, and `n_ctx_guards` is the number of the readers with a guard. -/
theorem guards_excluded {idleSleepMs : Int} {s : System} (h : Reachable idleSleepMs s) :
    (s.hold = .held ∨ s.locked → ∀ r ∈ s.readers, r.hasCtxGuard = false) ∧
      s.q.nCtxGuards = guardCount s.readers ∧ 0 ≤ s.q.nCtxGuards := by
  have hguarded := guarded_of_reachable h
  refine ⟨fun hblocked r hr => ?_, hguarded.count, ?_⟩
  · have hzero : s.q.nCtxGuards = 0 :=
      hblocked.elim hguarded.held fun hlocked => hguarded.sleeping (hguarded.callback hlocked)
    have hcount := hguarded.count
    refine Bool.eq_false_iff.mpr fun hguard => ?_
    have hpos := guardCount_pos hr hguard
    omega
  · rw [hguarded.count]
    exact Int.natCast_nonneg _

/-- A thread gets a guard, `ctx_hold_begin` waits for it, and returns true once the guard is given up. -/
def holdRun : List Action :=
  [.newReader, .reader 0 (.acquire false), .reader 0 .enter, .loop .holdBegin, .reader 0 .release, .loop .holdRecheck]

def heldSystem : System where
  q := { running := true, ctxHold := true }
  idleSleepMs := 1000
  hold := .held
  readers := [{}]

theorem guards_excluded_while_held :
    holdRun.foldlM System.step (initial 1000) = some heldSystem ∧ ∀ r ∈ heldSystem.readers, r.hasCtxGuard = false := by
  have hrun : holdRun.foldlM System.step (initial 1000) = some heldSystem := by decide
  exact ⟨hrun, (guards_excluded (Runs.Reaches.refl.ofList (fun _ _ _ => trivial) hrun)).1 (.inl rfl)⟩

end LlamaCpp.Server
