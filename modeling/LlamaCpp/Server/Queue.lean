import LlamaCpp.Lib.Runs

/-!
# The task queue of the server

`server_queue` of server-queue.cpp with the thread that runs `start_loop` and any number of request
threads, each with a `server_response_reader`.  What a thread does while it holds `mutex_tasks` is one
step.  The callbacks for the sleeping state run with the mutex held, so they are places of their own
(`LoopPc.callback`) where no other thread gets the mutex.

A thread that waits on `condition_tasks` may look at its condition at any time, which includes spurious
wake-ups.  `has_ctx_guard` is private to the thread of its reader and changes in one step with
`n_ctx_guards`.  Of a task the model has what the queue looks at.
-/

namespace LlamaCpp.Server

structure ServerTask where
  id : Int := -1
  /-- `type == SERVER_TASK_TYPE_CANCEL` -/
  isCancel : Bool := false
  idTarget : Int := -1
  idSlot : Int := -1
  /-- The ids of `child_tasks`. -/
  childIds : List Int := []
deriving DecidableEq

def getListId (tasks : List ServerTask) : List Int := tasks.flatMap fun task => task.id :: task.childIds

structure ServerQueue where
  id : Int := 0
  running : Bool := false
  sleeping : Bool := false
  reqStopSleeping : Bool := false
  ctxHold : Bool := false
  nCtxGuards : Int := 0
  timeLastTask : Int := 0
  queueTasks : List ServerTask := []
  queueTasksDeferred : List ServerTask := []
deriving DecidableEq

/-- What a thread in `ctx_guard_enter` does next. -/
inductive Entered where
  | waitHold
  | waitSleep
  | guarded

namespace ServerQueue

variable (q : ServerQueue) (now : Int)

def cleanupPendingTask (idTarget : Int) : ServerQueue :=
  { q with
    queueTasks := q.queueTasks.filter fun task => task.id ≠ idTarget
    queueTasksDeferred := q.queueTasksDeferred.filter fun task => task.id ≠ idTarget }

/-- The body of the loop of `post`. -/
def pushTask (front : Bool) (task : ServerTask) : ServerQueue :=
  let q := if task.isCancel then q.cleanupPendingTask task.idTarget else q
  { q with queueTasks := if front then task :: q.queueTasks else q.queueTasks ++ [task] }

/-- `post` of one task; `none` if the assertion fails. -/
def post (task : ServerTask) (front : Bool) : Option ServerQueue :=
  if task.id = -1 then none else some { q.pushTask front task with timeLastTask := now }

def pushNumbered (front : Bool) (task : ServerTask) : ServerQueue :=
  if task.id = -1 then { q with id := q.id + 1 }.pushTask front { task with id := q.id } else q.pushTask front task

/-- `post` of a list of tasks. -/
def postTasks (tasks : List ServerTask) (front : Bool) : ServerQueue :=
  { tasks.foldl (fun q task => q.pushNumbered front task) q with timeLastTask := now }

def deferTask (task : ServerTask) : ServerQueue :=
  { q with queueTasksDeferred := q.queueTasksDeferred ++ [task], timeLastTask := now }

def popDeferredTask (idSlot : Int) : ServerQueue :=
  let chosen := (q.queueTasksDeferred.find? (·.idSlot = idSlot)).or q.queueTasksDeferred.head?
  match chosen with
  | none => { q with timeLastTask := now }
  | some task =>
    { q with
      queueTasks := task :: q.queueTasks
      queueTasksDeferred := q.queueTasksDeferred.erase task
      timeLastTask := now }

/-- One round of the loop of `ctx_guard_enter`. -/
def ctxGuardEnter : ServerQueue × Entered :=
  if q.ctxHold then (q, .waitHold)
  else if q.sleeping then ({ q with reqStopSleeping := true }, .waitSleep)
  else ({ q with nCtxGuards := q.nCtxGuards + 1 }, .guarded)

def ctxGuardExit : ServerQueue := { q with nCtxGuards := q.nCtxGuards - 1 }

def shouldSleep (idleSleepMs : Int) : Bool := 0 ≤ idleSleepMs ∧ idleSleepMs ≤ now - q.timeLastTask

end ServerQueue

/-! ## The request threads -/

inductive ReaderPc where
  | ready
  /-- In `ctx_guard_enter`, in front of the mutex. -/
  | entering (timed : Bool)
  /-- Waiting for `!ctx_hold`. -/
  | holdWait (timed : Bool)
  /-- Waiting for `!sleeping`. -/
  | sleepWait (timed : Bool)
  /-- In `post_task` or `post_tasks`, between `ctx_guard_release` and `post`. -/
  | posting (tasks : List ServerTask) (front : Bool)
deriving DecidableEq

structure Reader where
  pc : ReaderPc := .ready
  hasCtxGuard : Bool := false
  idTasks : List Int := []
  receivedCount : Nat := 0
  cancelled : Bool := false
deriving DecidableEq

def Reader.hasNext (r : Reader) : Bool := !r.cancelled && r.receivedCount < r.idTasks.length

def Reader.cancelTasks (r : Reader) : List ServerTask :=
  r.idTasks.map fun idTask => { isCancel := true, idTarget := idTask }

/-- The steps of a request thread. -/
inductive ReaderAction where
  /-- `ctx_guard_acquire` is called, with or without a timeout. -/
  | acquire (timed : Bool)
  | enter
  /-- A waiting thread looks at its condition. -/
  | recheck
  | timeout
  | release
  /-- `post_task` or `post_tasks`, up to the release of the guard. -/
  | beginPost (tasks : List ServerTask) (front : Bool)
  | post
  | receive
  /-- `stop`, after the release of the guard. -/
  | stop

/-- The thread goes on in `ctx_guard_enter`. -/
def Reader.enterLoop (r : Reader) (q : ServerQueue) (timed : Bool) : ServerQueue × Reader :=
  match q.ctxGuardEnter with
  | (q, .waitHold) => (q, { r with pc := .holdWait timed })
  | (q, .waitSleep) => (q, { r with pc := .sleepWait timed })
  | (q, .guarded) => (q, { r with pc := .ready, hasCtxGuard := true })

/-- The reader gives up its guard, if it has one. -/
def Reader.ctxGuardRelease (r : Reader) (q : ServerQueue) : ServerQueue × Reader :=
  if r.hasCtxGuard then (q.ctxGuardExit, { r with hasCtxGuard := false }) else (q, r)

/-- A step of a request thread, if it is possible. -/
def Reader.step (r : Reader) (q : ServerQueue) (now : Int) : ReaderAction → Option (ServerQueue × Reader)
  | .acquire timed => if r.pc = .ready ∧ ¬r.hasCtxGuard then some (q, { r with pc := .entering timed }) else none
  | .enter =>
    match r.pc with
    | .entering timed => some (r.enterLoop q timed)
    | _ => none
  | .recheck =>
    match r.pc with
    | .holdWait timed => if q.ctxHold then none else some (r.enterLoop q timed)
    | .sleepWait timed => if q.sleeping then none else some (r.enterLoop q timed)
    | _ => none
  | .timeout =>
    match r.pc with
    | .holdWait true => if q.ctxHold then some (q, { r with pc := .ready }) else some (r.enterLoop q true)
    | _ => none
  | .release => if r.pc = .ready then some (r.ctxGuardRelease q) else none
  | .beginPost tasks front =>
    if r.pc = .ready ∧ r.hasCtxGuard ∧ r.idTasks = [] then
      let (q, r) := r.ctxGuardRelease q
      some (q, { r with pc := .posting tasks front, idTasks := getListId tasks })
    else none
  | .post =>
    match r.pc with
    | .posting tasks front => some (q.postTasks now tasks front, { r with pc := .ready })
    | _ => none
  | .receive => if r.pc = .ready ∧ r.hasNext then some (q, { r with receivedCount := r.receivedCount + 1 }) else none
  | .stop =>
    if r.pc = .ready ∧ ¬r.hasCtxGuard then
      if r.hasNext then some (q.postTasks now r.cancelTasks true, { r with cancelled := true }) else some (q, r)
    else none

/-! ## The queue thread -/

inductive LoopPc where
  | processing
  | updating
  | waiting
  /-- In `callback_sleeping_state`, with the mutex held. -/
  | callback (sleeping : Bool)
  /-- Waiting for `!running || req_stop_sleeping`. -/
  | parked
  | terminated
deriving DecidableEq

/-- How far the queue thread is between `ctx_hold_begin` and `ctx_hold_end`. -/
inductive HoldPc where
  | idle
  /-- In `ctx_hold_begin`, waiting for `n_ctx_guards == 0`. -/
  | waiting
  /-- `ctx_hold_begin` has returned true. -/
  | held
  /-- `ctx_hold_begin` has returned false. -/
  | failed
deriving DecidableEq

structure System where
  q : ServerQueue := { running := true }
  now : Int := 0
  idleSleepMs : Int
  pc : LoopPc := .processing
  hold : HoldPc := .idle
  readers : List Reader := []
deriving DecidableEq

inductive LoopAction where
  /-- The loop over the tasks takes one, or ends. -/
  | take
  /-- `callback_update_slots` returns. -/
  | updated
  /-- The loop that waits for tasks looks at the queue. -/
  | check
  /-- `callback_sleeping_state` returns. -/
  | callbackDone
  | wake
  /-- The callbacks post and defer tasks. -/
  | post (task : ServerTask) (front : Bool)
  | deferTask (task : ServerTask)
  | popDeferredTask (idSlot : Int)
  | holdBegin
  | holdRecheck
  | holdTimeout
  | holdEnd

inductive Action where
  | tick (ms : Nat)
  | newReader
  | reader (i : Nat) (a : ReaderAction)
  | loop (a : LoopAction)
  | terminate

namespace System

variable (s : System)

/-- The queue thread runs a callback for a task or for the slots. -/
def inCallback : Bool := (s.pc = .processing || s.pc = .updating) && s.hold ≠ .waiting

def loopStep : LoopAction → Option System
  | .take =>
    if s.pc = .processing ∧ s.hold ≠ .waiting then
      if !s.q.running then some { s with pc := .terminated }
      else
        match s.q.queueTasks with
        | [] => some { s with pc := .updating }
        | _ :: tasks => some { s with q := { s.q with queueTasks := tasks } }
    else none
  | .updated =>
    if s.pc = .updating ∧ s.hold ≠ .waiting then
      some { s with q := { s.q with timeLastTask := s.now }, pc := .waiting }
    else none
  | .check =>
    if s.pc = .waiting then
      if !s.q.running ∨ s.q.queueTasks ≠ [] then some { s with pc := .processing }
      else if s.q.shouldSleep s.now s.idleSleepMs ∧ s.q.nCtxGuards = 0 then
        some { s with q := { s.q with sleeping := true }, pc := .callback true }
      else some s
    else none
  | .callbackDone =>
    match s.pc with
    | .callback true => some { s with q := { s.q with reqStopSleeping := false }, pc := .parked }
    | .callback false =>
      some { s with q := { s.q with sleeping := false, timeLastTask := s.now }, pc := .processing }
    | _ => none
  | .wake =>
    if s.pc = .parked then
      if !s.q.running then some { s with pc := .processing }
      else if s.q.reqStopSleeping then
        some { s with q := { s.q with reqStopSleeping := false }, pc := .callback false }
      else none
    else none
  | .post task front => if s.inCallback then (s.q.post s.now task front).map fun q => { s with q := q } else none
  | .deferTask task => if s.inCallback then some { s with q := s.q.deferTask s.now task } else none
  | .popDeferredTask idSlot => if s.inCallback then some { s with q := s.q.popDeferredTask s.now idSlot } else none
  | .holdBegin =>
    if s.inCallback then
      some { s with
        q := { s.q with ctxHold := true }
        hold := if s.q.nCtxGuards = 0 then .held else .waiting }
    else none
  | .holdRecheck => if s.hold = .waiting ∧ s.q.nCtxGuards = 0 then some { s with hold := .held } else none
  | .holdTimeout =>
    if s.hold = .waiting then some { s with hold := if s.q.nCtxGuards = 0 then .held else .failed } else none
  | .holdEnd => if s.inCallback then some { s with q := { s.q with ctxHold := false }, hold := .idle } else none

/-- The queue thread holds the mutex between two of its steps. -/
def locked : Prop := ∃ sleeping, s.pc = .callback sleeping

instance : Decidable s.locked :=
  decidable_of_iff (s.pc = .callback true ∨ s.pc = .callback false)
    ⟨fun h => h.elim (fun h => ⟨true, h⟩) fun h => ⟨false, h⟩, fun ⟨b, h⟩ => by cases b <;> simp [h]⟩

def step : Action → Option System
  | .tick ms => some { s with now := s.now + ms }
  | .newReader => some { s with readers := s.readers ++ [{}] }
  | .reader i a =>
    if s.locked then none
    else
      match s.readers[i]? with
      | none => none
      | some r => (r.step s.q s.now a).map fun (q, r) => { s with q := q, readers := s.readers.set i r }
  | .loop a => s.loopStep a
  | .terminate => if s.locked then none else some { s with q := { s.q with running := false } }

end System

end LlamaCpp.Server
