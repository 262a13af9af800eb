import LlamaCpp.Lib.Runs
import Mathlib.Data.Finset.Basic

/-!
# The results of the server

`server_response` of server-queue.cpp with the readers that wait for results.  What a thread does while it
holds `mutex_results` is one step, and so is what it does with its own reader.  `server_response_reader::stop`
takes the mutex once for the list of waiting ids and then, if the reader is not finished, once for each id.

The ids come from `get_new_id`, so no id belongs to two readers.  Of a result the model has what the queue and
the reader look at; `received` remembers what `next` has returned.

A reader that stops before it is finished purges the results of its ids.  One that has all its results does
not: what is still queued for it stays (`stop_leaves_result`).  In runs where nothing is queued for a finished
reader when it stops (`Drained`), a stopped reader leaves nothing behind (`reaches_nothingLeft`).
-/

namespace LlamaCpp.Server

open List Option Function

structure TaskResult where
  id : Int
  isError : Bool := false
  /-- `is_stop` -/
  isStop : Bool := false
deriving DecidableEq

inductive ResponsePc where
  | ready
  /-- In `stop`, in front of `remove_waiting_task_id` for these ids. -/
  | purging (ids : List Int)
deriving DecidableEq

/-- `server_response_reader`, with what it has been given. -/
structure ResponseReader where
  pc : ResponsePc := .ready
  /-- The ids that `get_new_id` has returned to the thread. -/
  newIds : List Int := []
  idTasks : List Int := []
  receivedCount : Nat := 0
  cancelled : Bool := false
  /-- `stop` has returned. -/
  stopped : Bool := false
  received : List TaskResult := []

namespace ResponseReader

variable (r : ResponseReader)

def hasNext : Bool := !r.cancelled && r.receivedCount < r.idTasks.length

/-- `next`, once `recv_with_timeout` has returned a result. -/
def receive (res : TaskResult) : ResponseReader :=
  { r with
    received := r.received ++ [res]
    receivedCount := if !res.isError && res.isStop then r.receivedCount + 1 else r.receivedCount }

/-- What `stop` does behind `remove_waiting_task_ids`. -/
def beginStop : ResponseReader :=
  if r.hasNext then { r with cancelled := true, pc := .purging r.idTasks } else { r with stopped := true }

end ResponseReader

structure ServerResponse where
  waitingTaskIds : Finset Int := ∅
  queueResults : List TaskResult := []

namespace ServerResponse

variable (q : ServerResponse)

def addWaitingTaskIds (idTasks : List Int) : ServerResponse :=
  { q with waitingTaskIds := q.waitingTaskIds ∪ idTasks.toFinset }

def removeWaitingTaskId (idTask : Int) : ServerResponse where
  waitingTaskIds := q.waitingTaskIds.erase idTask
  queueResults := q.queueResults.filter fun res => res.id ≠ idTask

def removeWaitingTaskIds (idTasks : List Int) : ServerResponse :=
  { q with waitingTaskIds := q.waitingTaskIds \ idTasks.toFinset }

/-- The first result for one of the ids, which is taken out of the queue. -/
def recv (idTasks : List Int) : Option (TaskResult × ServerResponse) :=
  (q.queueResults.find? fun res => res.id ∈ idTasks).map fun res =>
    (res, { q with queueResults := q.queueResults.eraseP fun res => res.id ∈ idTasks })

def send (result : TaskResult) : ServerResponse :=
  if result.id ∈ q.waitingTaskIds then { q with queueResults := q.queueResults ++ [result] } else q

/-- `broadcast`; `order` is the order in which the waiting ids are visited. -/
def broadcast (result : TaskResult) (order : List Int) : ServerResponse :=
  { q with queueResults := q.queueResults ++ order.map fun idTask => { result with id := idTask } }

end ServerResponse

/-- The queue with all its readers; `id` is the counter of `get_new_id`. -/
structure ResponseSystem where
  q : ServerResponse := {}
  id : Int := 0
  readers : Nat → ResponseReader := fun _ => {}

inductive ResponseAction where
  | send (result : TaskResult)
  | broadcast (result : TaskResult) (order : List Int)
  | getNewId (i : Nat)
  /-- `post_task` or `post_tasks`. -/
  | post (i : Nat) (idTasks : List Int)
  /-- `recv_with_timeout` finds a result. -/
  | next (i : Nat)
  /-- The result is an error: `next` calls `stop` before it returns. -/
  | stop (i : Nat)
  /-- The next `remove_waiting_task_id` of `stop`. -/
  | purge (i : Nat)

namespace ResponseSystem

variable (s : ResponseSystem)

/-- The reader of thread `i` is `r`. -/
def setReader (i : Nat) (r : ResponseReader) : ResponseSystem :=
  { s with readers := Function.update s.readers i r }

/-- A step, if it is possible.  A thread uses its reader as long as it has not stopped, and may call `stop`
again: the destructor does. -/
def step : ResponseAction → Option ResponseSystem
  | .send result => some { s with q := s.q.send result }
  | .broadcast result order =>
    if order.Nodup ∧ order.toFinset = s.q.waitingTaskIds then some { s with q := s.q.broadcast result order } else none
  | .getNewId i =>
    some ({ s with id := s.id + 1 }.setReader i { s.readers i with newIds := s.id :: (s.readers i).newIds })
  | .post i idTasks =>
    let r := s.readers i
    -- one call per reader, and one id per task
    if r.pc = .ready ∧ ¬r.stopped ∧ r.idTasks = [] ∧ idTasks.Nodup ∧ ∀ id ∈ idTasks, id ∈ r.newIds then
      some ({ s with q := s.q.addWaitingTaskIds idTasks }.setReader i { r with idTasks := idTasks })
    else none
  | .next i =>
    let r := s.readers i
    if r.pc = .ready ∧ ¬r.stopped then
      (s.q.recv r.idTasks).map fun (res, q) => { s with q := q }.setReader i (r.receive res)
    else none
  | .stop i =>
    let r := s.readers i
    if r.pc = .ready then
      some ({ s with q := s.q.removeWaitingTaskIds r.idTasks }.setReader i r.beginStop)
    else none
  | .purge i =>
    let r := s.readers i
    match r.pc with
    | .purging (id :: ids) => some ({ s with q := s.q.removeWaitingTaskId id }.setReader i { r with pc := .purging ids })
    | .purging [] => some (s.setReader i { r with pc := .ready, stopped := true })
    | .ready => none

end ResponseSystem

/-- After `stop` has returned, nothing is queued for the reader. -/
def NothingLeft (s : ResponseSystem) : Prop :=
  ∀ i, (s.readers i).stopped = true → ∀ res ∈ s.q.queueResults, res.id ∉ (s.readers i).idTasks

/-- What a reader has received is for an id that it has posted. -/
def OwnResults (s : ResponseSystem) : Prop :=
  ∀ i, ∀ res ∈ (s.readers i).received, res.id ∈ (s.readers i).idTasks

/-- A reader that has all its results stops only if nothing more is queued for it. -/
def Drained (s : ResponseSystem) : ResponseAction → Prop
  | .stop i => (s.readers i).hasNext = true ∨ ∀ res ∈ s.q.queueResults, res.id ∉ (s.readers i).idTasks
  | _ => True

/-! ## Ids that are given up -/

/-- Nobody waits for the ids any more, and what is queued for them is for the ids `rest`. -/
structure Gone (q : ServerResponse) (ids rest : List Int) : Prop where
  notWaiting : ∀ id ∈ ids, id ∉ q.waitingTaskIds
  queued : ∀ res ∈ q.queueResults, res.id ∈ ids → res.id ∈ rest

namespace Gone

variable {q : ServerResponse} {ids rest : List Int}

theorem send (h : Gone q ids rest) (result : TaskResult) : Gone (q.send result) ids rest := by
  unfold ServerResponse.send
  split
  · rename_i hwait
    refine ⟨h.notWaiting, fun res hres hid => ?_⟩
    rcases List.mem_append.mp hres with hres | hres
    · exact h.queued res hres hid
    · obtain rfl := mem_singleton.mp hres
      exact absurd hwait (h.notWaiting _ hid)
  · exact h

theorem broadcast (h : Gone q ids rest) (result : TaskResult) {order : List Int}
    (horder : order.toFinset = q.waitingTaskIds) : Gone (q.broadcast result order) ids rest where
  notWaiting := h.notWaiting
  queued := fun res hres hid => by
    rcases List.mem_append.mp hres with hres | hres
    · exact h.queued res hres hid
    · obtain ⟨id, hmem, rfl⟩ := List.mem_map.mp hres
      have hwait : id ∈ q.waitingTaskIds := horder ▸ List.mem_toFinset.mpr hmem
      exact absurd hwait (h.notWaiting _ hid)

theorem add (h : Gone q ids rest) {idTasks : List Int} (hnew : ∀ id ∈ idTasks, id ∉ ids) :
    Gone (q.addWaitingTaskIds idTasks) ids rest where
  notWaiting := fun id hid hwait => by
    rcases Finset.mem_union.mp hwait with hwait | hwait
    · exact h.notWaiting id hid hwait
    · exact hnew id (List.mem_toFinset.mp hwait) hid
  queued := h.queued

theorem recv (h : Gone q ids rest) {idTasks : List Int} {res : TaskResult} {q' : ServerResponse}
    (hrun : q.recv idTasks = some (res, q')) : Gone q' ids rest := by
  obtain ⟨_, -, heq⟩ := map_eq_some_iff.mp hrun
  obtain ⟨-, rfl⟩ := Prod.mk.inj heq
  exact ⟨h.notWaiting, fun res hres => h.queued res (mem_of_mem_eraseP hres)⟩

theorem removeAll (h : Gone q ids rest) (idTasks : List Int) : Gone (q.removeWaitingTaskIds idTasks) ids rest where
  notWaiting := fun id hid hwait => h.notWaiting id hid (Finset.mem_sdiff.mp hwait).1
  queued := h.queued

theorem remove (h : Gone q ids rest) (idTask : Int) : Gone (q.removeWaitingTaskId idTask) ids rest where
  notWaiting := fun id hid hwait => h.notWaiting id hid (Finset.mem_of_mem_erase hwait)
  queued := fun res hres => h.queued res (mem_of_mem_filter hres)

theorem purge {id : Int} (h : Gone q ids (id :: rest)) : Gone (q.removeWaitingTaskId id) ids rest where
  notWaiting := (h.remove id).notWaiting
  queued := fun res hres hid => by
    obtain ⟨hmem, hne⟩ := mem_filter.mp hres
    rcases mem_cons.mp (h.queued res hmem hid) with heq | hrest
    · exact absurd heq (of_decide_eq_true hne)
    · exact hrest

theorem of_remove (q : ServerResponse) (ids : List Int) : Gone (q.removeWaitingTaskIds ids) ids ids where
  notWaiting := fun _ hid hwait => (Finset.mem_sdiff.mp hwait).2 (List.mem_toFinset.mpr hid)
  queued := fun _ _ hid => hid

end Gone

/-! ## The invariant -/

/-- How far `stop` has come. -/
structure Leaving (q : ServerResponse) (r : ResponseReader) : Prop where
  purging : ∀ ids, r.pc = .purging ids → Gone q r.idTasks ids
  stopped : r.stopped = true → Gone q r.idTasks []

theorem Leaving.mono {q q' : ServerResponse} {r r' : ResponseReader} (h : Leaving q r) (hpc : r'.pc = r.pc)
    (hids : r'.idTasks = r.idTasks) (hstop : r'.stopped = r.stopped)
    (hq : ∀ rest, Gone q r.idTasks rest → Gone q' r.idTasks rest) : Leaving q' r' where
  purging := fun ids hp => by
    rw [hids]
    exact hq ids (h.purging ids (hpc ▸ hp))
  stopped := fun hs => by
    rw [hids]
    exact hq [] (h.stopped (hstop ▸ hs))

/-- What holds along runs of the readers. -/
structure ResponseInv (s : ResponseSystem) : Prop where
  fresh : ∀ i, ∀ id ∈ (s.readers i).newIds, id < s.id
  apart : ∀ i j, i ≠ j → ∀ id ∈ (s.readers i).newIds, id ∉ (s.readers j).newIds
  posted : ∀ i, ∀ id ∈ (s.readers i).idTasks, id ∈ (s.readers i).newIds
  received : OwnResults s
  leaving : ∀ i, Leaving s.q (s.readers i)

theorem responseInv_init : ResponseInv {} where
  fresh := fun _ _ h => absurd h not_mem_nil
  apart := fun _ _ _ _ h => absurd h not_mem_nil
  posted := fun _ _ h => absurd h not_mem_nil
  received := fun _ _ h => absurd h not_mem_nil
  leaving := fun _ => ⟨fun _ h => (nomatch h), fun h => (nomatch h)⟩

namespace ResponseInv

variable {s : ResponseSystem} {q : ServerResponse} {i : Nat} {r : ResponseReader}

/-- A step that leaves the readers alone. -/
theorem setQueue (h : ResponseInv s) (hq : ∀ ids rest, Gone s.q ids rest → Gone q ids rest) :
    ResponseInv { s with q := q } :=
  { h with leaving := fun i => (h.leaving i).mono rfl rfl rfl (hq _) }

theorem setReader (h : ResponseInv s) (hnew : r.newIds = (s.readers i).newIds) (hposted : ∀ id ∈ r.idTasks, id ∈ r.newIds)
    (hreceived : ∀ res ∈ r.received, res.id ∈ r.idTasks) (hleaving : Leaving q r)
    (hq : ∀ j, j ≠ i → ∀ rest, Gone s.q (s.readers j).idTasks rest → Gone q (s.readers j).idTasks rest) :
    ResponseInv ({ s with q := q }.setReader i r) := by
  have hself : ({ s with q := q }.setReader i r : ResponseSystem).readers i = r := update_self ..
  have hother : ∀ j, j ≠ i → ({ s with q := q }.setReader i r : ResponseSystem).readers j = s.readers j :=
    fun j hj => update_of_ne hj ..
  have hids : ∀ j, (({ s with q := q }.setReader i r : ResponseSystem).readers j).newIds = (s.readers j).newIds := by
    intro j
    rcases eq_or_ne j i with rfl | hj
    · rw [hself, hnew]
    · rw [hother j hj]
  refine ⟨fun j => ?_, fun j k hjk => ?_, fun j => ?_, fun j => ?_, fun j => ?_⟩
  · rw [hids j]
    exact h.fresh j
  · rw [hids j, hids k]
    exact h.apart j k hjk
  · rcases eq_or_ne j i with rfl | hj
    · rw [hself]
      exact hposted
    · rw [hother j hj]
      exact h.posted j
  · rcases eq_or_ne j i with rfl | hj
    · rw [hself]
      exact hreceived
    · rw [hother j hj]
      exact h.received j
  · rcases eq_or_ne j i with rfl | hj
    · rw [hself]
      exact hleaving
    · rw [hother j hj]
      exact (h.leaving j).mono rfl rfl rfl (hq j hj)

theorem getNewId (h : ResponseInv s) (i : Nat) :
    ResponseInv ({ s with id := s.id + 1 }.setReader i { s.readers i with newIds := s.id :: (s.readers i).newIds }) := by
  have hids : ∀ j id, id ∈ (Function.update s.readers i { s.readers i with newIds := s.id :: (s.readers i).newIds } j).newIds →
      (j = i ∧ id = s.id) ∨ id ∈ (s.readers j).newIds := by
    intro j id hid
    rcases eq_or_ne j i with rfl | hj
    · rw [update_self] at hid
      rcases mem_cons.mp hid with rfl | hid
      · exact .inl ⟨rfl, rfl⟩
      · exact .inr hid
    · rw [update_of_ne hj] at hid
      exact .inr hid
  refine ⟨fun j id hid => ?_, fun j k hjk id hj hk => ?_, fun j => ?_, fun j => ?_, fun j => ?_⟩
  · change id < s.id + 1
    rcases hids j id hid with ⟨-, rfl⟩ | hid
    · omega
    · exact Int.lt_trans (h.fresh j id hid) (by omega)
  · rcases hids j id hj with ⟨rfl, rfl⟩ | hj
    · rcases hids k _ hk with ⟨rfl, -⟩ | hk
      · exact hjk rfl
      · exact absurd (h.fresh k _ hk) (Int.lt_irrefl _)
    · rcases hids k id hk with ⟨-, rfl⟩ | hk
      · exact absurd (h.fresh j _ hj) (Int.lt_irrefl _)
      · exact h.apart j k hjk id hj hk
  · change ∀ id ∈ (Function.update s.readers i _ j).idTasks, id ∈ (Function.update s.readers i _ j).newIds
    rcases eq_or_ne j i with rfl | hj
    · rw [update_self]
      exact fun id hid => mem_cons_of_mem _ (h.posted j id hid)
    · rw [update_of_ne hj]
      exact h.posted j
  · change ∀ res ∈ (Function.update s.readers i _ j).received, res.id ∈ (Function.update s.readers i _ j).idTasks
    rcases eq_or_ne j i with rfl | hj
    · rw [update_self]
      exact h.received j
    · rw [update_of_ne hj]
      exact h.received j
  · change Leaving s.q (Function.update s.readers i _ j)
    rcases eq_or_ne j i with rfl | hj
    · rw [update_self]
      exact (h.leaving j).mono rfl rfl rfl fun _ hgone => hgone
    · rw [update_of_ne hj]
      exact h.leaving j

theorem post (h : ResponseInv s) {idTasks : List Int} (hready : (s.readers i).pc = .ready)
    (hstop : ¬(s.readers i).stopped = true) (hnone : (s.readers i).idTasks = [])
    (hown : ∀ id ∈ idTasks, id ∈ (s.readers i).newIds) :
    ResponseInv ({ s with q := s.q.addWaitingTaskIds idTasks }.setReader i { s.readers i with idTasks := idTasks }) := by
  refine h.setReader rfl hown (fun res hres => ?_) ⟨fun ids hp => ?_, fun hs => absurd hs hstop⟩ fun j hj rest hgone => ?_
  · -- nothing has been received before
    have hid := h.received i res hres
    rw [hnone] at hid
    exact absurd hid not_mem_nil
  · rw [show (s.readers i).pc = .purging ids from hp] at hready
    exact nomatch hready
  · exact hgone.add fun id hid hother => h.apart i j hj.symm id (hown id hid) (h.posted j id hother)

theorem next (h : ResponseInv s) {res : TaskResult} (hready : (s.readers i).pc = .ready)
    (hstop : ¬(s.readers i).stopped = true) (hrecv : s.q.recv (s.readers i).idTasks = some (res, q)) :
    ResponseInv ({ s with q := q }.setReader i ((s.readers i).receive res)) := by
  have hfound : res.id ∈ (s.readers i).idTasks := by
    obtain ⟨res', hfind, heq⟩ := map_eq_some_iff.mp hrecv
    obtain ⟨rfl, -⟩ := Prod.mk.inj heq
    have hmem := find?_some hfind
    exact of_decide_eq_true hmem
  refine h.setReader rfl (h.posted i) (fun res' hres' => ?_) ⟨fun ids hp => ?_, fun hs => absurd hs hstop⟩
    fun j _ rest hgone => hgone.recv hrecv
  · rcases List.mem_append.mp hres' with hres' | hres'
    · exact h.received i res' hres'
    · obtain rfl := mem_singleton.mp hres'
      exact hfound
  · rw [show (s.readers i).pc = .purging ids from hp] at hready
    exact nomatch hready

theorem stop (h : ResponseInv s) (hready : (s.readers i).pc = .ready) (hdrained : Drained s (.stop i)) :
    ResponseInv ({ s with q := s.q.removeWaitingTaskIds (s.readers i).idTasks }.setReader i (s.readers i).beginStop) := by
  have hgone := Gone.of_remove s.q (s.readers i).idTasks
  have hsame : (s.readers i).beginStop.newIds = (s.readers i).newIds ∧
      (s.readers i).beginStop.idTasks = (s.readers i).idTasks ∧
      (s.readers i).beginStop.received = (s.readers i).received := by
    unfold ResponseReader.beginStop
    split <;> exact ⟨rfl, rfl, rfl⟩
  obtain ⟨hnew, hids, hrecv⟩ := hsame
  refine h.setReader hnew (by rw [hnew, hids]; exact h.posted i) (by rw [hrecv, hids]; exact h.received i) ?_
    fun j _ rest hj => hj.removeAll _
  unfold ResponseReader.beginStop
  split
  · refine ⟨fun ids hp => ?_, fun hs => ((h.leaving i).stopped hs).removeAll _⟩
    obtain rfl : (s.readers i).idTasks = ids := by simpa using hp
    exact hgone
  · rename_i hnext
    refine ⟨fun ids hp => ?_, fun _ => ⟨hgone.notWaiting, fun res hres hid => ?_⟩⟩
    · rw [show (s.readers i).pc = .purging ids from hp] at hready
      exact nomatch hready
    · exact absurd hid ((hdrained.resolve_left hnext) res hres)

theorem purge (h : ResponseInv s) {s' : ResponseSystem} (hrun : s.step (.purge i) = some s') : ResponseInv s' := by
  unfold ResponseSystem.step at hrun
  dsimp only at hrun
  split at hrun
  · rename_i id ids hpc
    obtain rfl := some.inj hrun
    have hgone := (h.leaving i).purging _ hpc
    refine h.setReader rfl (h.posted i) (h.received i) ⟨fun ids' hp => ?_, fun hs => ?_⟩ fun j _ rest hj => hj.remove id
    · obtain rfl : ids = ids' := by simpa using hp
      exact hgone.purge
    · exact ((h.leaving i).stopped hs).remove id
  · rename_i hpc
    obtain rfl := some.inj hrun
    have hgone := (h.leaving i).purging _ hpc
    exact h.setReader (q := s.q) rfl (h.posted i) (h.received i) ⟨fun ids' hp => (nomatch hp), fun _ => hgone⟩
      fun j _ rest hj => hj
  · exact nomatch hrun

theorem step (h : ResponseInv s) {a : ResponseAction} {s' : ResponseSystem} (hdrained : Drained s a)
    (hrun : s.step a = some s') : ResponseInv s' := by
  cases a with
  | send result =>
    obtain rfl := some.inj hrun
    exact h.setQueue fun _ _ hgone => hgone.send result
  | broadcast result order =>
    obtain ⟨⟨-, horder⟩, hrun⟩ := ite_none_right_eq_some.mp hrun
    obtain rfl := some.inj hrun
    exact h.setQueue fun _ _ hgone => hgone.broadcast result horder
  | getNewId i =>
    obtain rfl := some.inj hrun
    exact h.getNewId i
  | post i idTasks =>
    obtain ⟨⟨hready, hstop, hnone, -, hown⟩, hrun⟩ := ite_none_right_eq_some.mp hrun
    obtain rfl := some.inj hrun
    exact h.post hready hstop hnone hown
  | next i =>
    obtain ⟨⟨hready, hstop⟩, hrun⟩ := ite_none_right_eq_some.mp hrun
    obtain ⟨⟨res, q⟩, hrecv, rfl⟩ := map_eq_some_iff.mp hrun
    exact h.next hready hstop hrecv
  | stop i =>
    obtain ⟨hready, hrun⟩ := ite_none_right_eq_some.mp hrun
    obtain rfl := some.inj hrun
    exact h.stop hready hdrained
  | purge i => exact h.purge hrun

end ResponseInv

/-! ## Runs -/

/-- In every run where nothing is queued for a finished reader when it stops, a stopped reader leaves nothing behind,
and every reader receives results for its own ids only. -/
theorem reaches_nothingLeft {s : ResponseSystem} (h : Runs.Reaches ResponseSystem.step Drained {} s) :
    NothingLeft s ∧ OwnResults s := by
  have hinv : ResponseInv s := h.inv (fun _ _ _ hs hdrained hrun => hs.step hdrained hrun) responseInv_init
  exact ⟨fun i hstop res hres hid => absurd (((hinv.leaving i).stopped hstop).queued res hres hid) not_mem_nil,
    hinv.received⟩

/-- One reader posts a task, gets its only result and stops; another is cancelled. -/
def finishedRun : List ResponseAction :=
  [.getNewId 0, .getNewId 1, .post 0 [0], .post 1 [1], .send { id := 0, isStop := true }, .next 0, .stop 0,
    .send { id := 1 }, .stop 1, .purge 1, .purge 1]

theorem reaches_nothingLeft_finished : ∃ s, finishedRun.foldlM ResponseSystem.step {} = some s ∧
    NothingLeft s ∧ OwnResults s := by
  have hrun : ((finishedRun.take 6).foldlM ResponseSystem.step {}).bind (fun s =>
      if (∀ res ∈ s.q.queueResults, res.id ∉ (s.readers 0).idTasks) then
        (s.step (.stop 0)).bind fun s₁ => (s₁.step (.send { id := 1 })).bind fun s₂ =>
          if (s₂.readers 1).hasNext = true then ((finishedRun.drop 8).foldlM ResponseSystem.step s₂).map fun _ => ()
          else none
      else none) = some () := by
    decide +kernel
  obtain ⟨s, hs, hrun⟩ := bind_eq_some_iff.mp hrun
  obtain ⟨hdrained, hrun⟩ := ite_none_right_eq_some.mp hrun
  obtain ⟨s₁, hs₁, hrun⟩ := bind_eq_some_iff.mp hrun
  obtain ⟨s₂, hs₂, hrun⟩ := bind_eq_some_iff.mp hrun
  obtain ⟨hnext, hrun⟩ := ite_none_right_eq_some.mp hrun
  obtain ⟨s₅, hs₅, -⟩ := map_eq_some_iff.mp hrun
  obtain ⟨s₃, hs₃, hrest⟩ := bind_eq_some_iff.mp hs₅
  have hfirst : Runs.Reaches ResponseSystem.step Drained {} s :=
    Runs.Reaches.refl.ofList (by simp [finishedRun, Drained]) hs
  have hstop : Drained s (.stop 0) := .inr hdrained
  have hstop' : Drained s₂ (.stop 1) := .inl hnext
  have hthird := ((hfirst.step hstop hs₁).step (show Drained s₁ (.send _) from trivial) hs₂).step hstop' hs₃
  have hall : finishedRun.foldlM ResponseSystem.step {} = some s₅ := by
    have hsplit : finishedRun = finishedRun.take 6 ++ (.stop 0 :: .send { id := 1 } :: finishedRun.drop 8) := rfl
    rw [hsplit, foldlM_append, hs]
    simp only [bind_eq_bind, bind_some, foldlM_cons, hs₁, hs₂]
    exact hs₅
  exact ⟨s₅, hall, reaches_nothingLeft (hthird.ofList (by simp [Drained]) hrest)⟩

/-- A second result is sent for a task whose reader has got the last one: the reader stops without looking. -/
theorem stop_leaves_result : ¬∀ s, Runs.Reaches ResponseSystem.step (fun _ _ => True) {} s → NothingLeft s ∧ OwnResults s := by
  intro h
  have hrun : ([.getNewId 0, .post 0 [0], .send { id := 0, isStop := true }, .next 0, .broadcast { id := -1 } [0],
      .stop 0].foldlM ResponseSystem.step {}).map (fun s => ((s.readers 0).stopped, (s.readers 0).idTasks, s.q.queueResults)) =
      some (true, [0], [{ id := 0 }]) := by
    decide +kernel
  obtain ⟨s, hs, heq⟩ := map_eq_some_iff.mp hrun
  simp only [Prod.mk.injEq] at heq
  obtain ⟨hstop, hids, hqueue⟩ := heq
  have hleft := (h s (Runs.Reaches.refl.ofList (fun _ _ _ => trivial) hs)).1 0 hstop { id := 0 }
  rw [hids, hqueue] at hleft
  exact hleft (by simp) (by simp)

end LlamaCpp.Server
