import LlamaCpp.Lib.Runs
import Mathlib.Logic.Function.Basic

/-!
# Pulls between workers

A coordinator has one connection to each worker, and a worker has one to each worker that it pulls from.  A `Link` is both
ends of a connection: what the client has sent and counted, and how far the worker is with it.  A worker executes the
commands of a connection in order, and one command at a time of all its connections.

A `COPY_FROM_REMOTE` makes its worker pull: it sends a fenced read to the source, which waits until the source has executed as
many commands of the coordinator as the fence says, and writes what it was answered.  Between these the worker serves its
other connections.  A copy call captures all its fences, then sends all its requests, and then waits for their answers.  A
call of one pull is the copy of a single tensor.

A step of `Net` is what happens under one lock: a command that goes out is counted under the mutex of its socket, and a
handler, its response and its count are under the execution lock of the worker.  Connections do not break.  What other
clients do to a worker is `other`, and the `log` of a worker is a record of what has changed or read its memory.
-/

namespace LlamaCpp.Rpc

open Function (update)

/-- A copy of a tensor of the worker `src` to a tensor of the worker `dst`. -/
structure PullSpec (M V : Type) where
  src : Nat
  dst : Nat
  get : M → V
  put : V → M → M

/-- How far a pull is.  `refused` is a source that cannot be reached, and the answer is the result. -/
inductive PullStage (V : Type) where
  | captured
  | requested
  | asked
  | fetched (v : V)
  | stored (v : V)
  | refused
  | answered (result : Option V)

/-- `rpc_w2w_pull`.  `seq` counts the requests that went out before it, and `back` the commands to the source when the call
returned. -/
structure Pull (M V : Type) where
  spec : PullSpec M V
  fence : Nat
  stage : PullStage V := .captured
  seq : Nat := 0
  back : Option Nat := none

def Pull.value {M V : Type} (p : Pull M V) : Option V :=
  match p.stage with
  | .fetched v => some v
  | .stored v => some v
  | .answered r => r
  | _ => none

/-- The commands of a connection: HELLO, one that can change memory, one that reports something without the execution lock,
a batch of placements, the request for a pull, and its fenced read. -/
inductive LinkCmd (M : Type) where
  | hello
  | run (f : M → M)
  | report
  | placements (fs : List (M → M))
  | pull (k : Nat)
  | fenced (k : Nat)

/-- A connection: `cmds_sent` and the commands of the client, the number of commands that the worker is done with, and its
`conn_executed`. -/
structure Link (M : Type) where
  cmdsSent : Nat := 0
  sent : List (LinkCmd M) := []
  handled : Nat := 0
  connExecuted : Nat := 0

namespace Link

variable {M : Type} (l : Link M)

/-- `send_rpc_cmd_raw` -/
def push (c : LinkCmd M) : Link M := { l with cmdsSent := l.cmdsSent + 1, sent := l.sent ++ [c] }

/-- The command that the worker is at. -/
def next : Option (LinkCmd M) := l.sent[l.handled]?

/-- `rpc_server::conn_started`, after HELLO -/
def started : Link M := { l with handled := l.handled + 1, connExecuted := 1 }

/-- `rpc_server::mark_executed` -/
def executed : Link M := { l with handled := l.handled + 1, connExecuted := l.connExecuted + 1 }

/-- No command is under way. -/
def Idle : Prop := l.handled = l.sent.length

end Link

/-- What happened to a worker: it finished the command of the coordinator at a place, served another client, or executed the
read or the write of a pull. -/
inductive WorkerEvent (M : Type) where
  | cmd (i : Nat) (f : M → M)
  | other (f : M → M)
  | read (k : Nat)
  | write (k : Nat) (f : M → M)

def WorkerEvent.effect {M : Type} : WorkerEvent M → M → M
  | .cmd _ f | .other f | .write _ f => f
  | .read _ => id

def memAfter {M : Type} (m : M) (log : List (WorkerEvent M)) : M := log.foldl (fun m e => e.effect m) m

/-- A copy call: the copies whose fences are not captured yet, the pulls whose requests are not sent yet, those that are not
answered yet, and all its pulls. -/
structure CopyCall (M V : Type) where
  todo : List (PullSpec M V) := []
  captured : List Nat := []
  inFlight : List Nat := []
  pulls : List Nat := []
  returned : Bool := false

structure Net (M V : Type) where
  mem : Nat → M
  link : Nat → Link M := fun _ => {}
  peer : Nat → Nat → Link M := fun _ _ => {}
  pending : Nat → List (M → M) := fun _ => []
  pulls : List (Pull M V) := []
  calls : List (CopyCall M V) := []
  requests : Nat := 0
  log : Nat → List (WorkerEvent M) := fun _ => []

/-- What can happen.  The workers do the actions from `serve` on. -/
inductive NetAction (M V : Type) where
  | connect (w : Nat)
  | queue (w : Nat) (f : M → M)
  | flush (w : Nat)
  | send (w : Nat) (f : M → M)
  | inspect (w : Nat)
  | begin (copies : List (PullSpec M V))
  | capture (c : Nat)
  | request (c k : Nat)
  | collect (c k : Nat)
  | ret (c : Nat)
  | serve (w : Nat)
  | connectPeer (d s : Nat)
  | servePeer (d s : Nat)
  | ask (d : Nat)
  | refuse (d : Nat)
  | read (d s : Nat)
  | store (d : Nat)
  | answer (d : Nat)
  | finish (d : Nat)
  | other (w : Nat) (f : M → M)

namespace Net

variable {M V : Type} (s : Net M V)

/-- A command of the coordinator goes out. -/
def push (w : Nat) (c : LinkCmd M) : Net M V := { s with link := update s.link w ((s.link w).push c) }

/-- A command to a peer goes out. -/
def pushPeer (d w : Nat) (c : LinkCmd M) : Net M V :=
  { s with peer := update s.peer d (update (s.peer d) w ((s.peer d w).push c)) }

def happen (w : Nat) (e : WorkerEvent M) : Net M V :=
  { s with mem := update s.mem w (e.effect (s.mem w)), log := update s.log w (s.log w ++ [e]) }

/-- The worker is done with the command that it is at. -/
def finished (w : Nat) (l : Link M) (f : M → M) : Net M V :=
  { s.happen w (.cmd (s.link w).handled f) with link := update s.link w l }

def setPeer (d w : Nat) (l : Link M) : Net M V := { s with peer := update s.peer d (update (s.peer d) w l) }

def editPull (k : Nat) (f : Pull M V → Pull M V) : Net M V := { s with pulls := s.pulls.modify k f }

def setStage (k : Nat) (stage : PullStage V) : Net M V := s.editPull k fun p => { p with stage := stage }

def setCall (c : Nat) (call : CopyCall M V) : Net M V := { s with calls := s.calls.set c call }

/-- The response to HELLO has arrived. -/
def Ready (w : Nat) : Prop := 1 ≤ (s.link w).handled

instance (w : Nat) : Decidable (s.Ready w) := inferInstanceAs (Decidable (_ ≤ _))

def current (d : Nat) : Option (Nat × Pull M V) :=
  match (s.link d).next with
  | some (.pull k) => s.pulls[k]?.map fun p => (k, p)
  | _ => none

/-- The copies of a call are between workers that are connected, and no two of them have one destination. -/
def CanCopy (copies : List (PullSpec M V)) : Prop :=
  (copies.map PullSpec.dst).Nodup ∧ ∀ x ∈ copies, x.src ≠ x.dst ∧ s.Ready x.src ∧ s.Ready x.dst

instance (copies : List (PullSpec M V)) : Decidable (s.CanCopy copies) := inferInstanceAs (Decidable (_ ∧ _))

/-- `rpc_w2w_pull_set_fence` of the next copy of a call -/
def captureFence (c : Nat) (call : CopyCall M V) (x : PullSpec M V) (rest : List (PullSpec M V)) : Net M V :=
  { s with
    pulls := s.pulls ++ [{ spec := x, fence := (s.link x.src).cmdsSent }]
    calls := s.calls.set c { call with
      todo := rest
      captured := call.captured ++ [s.pulls.length]
      pulls := call.pulls ++ [s.pulls.length] } }

def sendRequest (k : Nat) (p : Pull M V) : Net M V :=
  { (s.push p.spec.dst (.pull k)).editPull k fun p => { p with stage := .requested, seq := s.requests } with
    requests := s.requests + 1 }

def returnCall (call : CopyCall M V) : Net M V :=
  { s with pulls := s.pulls.mapIdx fun k p =>
      if k ∈ call.pulls then { p with back := some (s.link p.spec.src).sent.length } else p }

def coordinate : NetAction M V → Option (Net M V)
  | .connect w => if (s.link w).sent.isEmpty then some (s.push w .hello) else none
  | .queue w f => some { s with pending := update s.pending w (s.pending w ++ [f]) }
  | .flush w =>
    if s.Ready w ∧ ¬ (s.pending w).isEmpty then
      some { s.push w (.placements (s.pending w)) with pending := update s.pending w [] }
    else none
  | .send w f => if s.Ready w ∧ (s.pending w).isEmpty then some (s.push w (.run f)) else none
  | .inspect w => if s.Ready w ∧ (s.pending w).isEmpty then some (s.push w .report) else none
  | .begin copies =>
    if s.CanCopy copies then some { s with calls := s.calls ++ [{ todo := copies }] } else none
  | .capture c =>
    match s.calls[c]? with
    | some call =>
      match call.todo with
      | x :: rest => some (s.captureFence c call x rest)
      | [] => none
    | none => none
  | .request c k =>
    match s.calls[c]?, s.pulls[k]? with
    | some call, some p =>
      match p.stage with
      | .captured =>
        if call.todo.isEmpty ∧ k ∈ call.captured ∧ (s.pending p.spec.dst).isEmpty then
          some ((s.sendRequest k p).setCall c { call with
            captured := call.captured.erase k
            inFlight := call.inFlight ++ [k] })
        else none
      | _ => none
    | _, _ => none
  | .collect c k =>
    match s.calls[c]?, s.pulls[k]? with
    | some call, some p =>
      match p.stage with
      | .answered _ =>
        if call.todo.isEmpty ∧ call.captured.isEmpty ∧ k ∈ call.inFlight then
          some (s.setCall c { call with inFlight := call.inFlight.erase k })
        else none
      | _ => none
    | _, _ => none
  | .ret c =>
    match s.calls[c]? with
    | some call =>
      if call.todo.isEmpty ∧ call.captured.isEmpty ∧ call.inFlight.isEmpty ∧ call.returned = false then
        some ((s.returnCall call).setCall c { call with returned := true })
      else none
    | none => none
  | _ => none

/-- What the workers do.  The last one is of another client. -/
def work : NetAction M V → Option (Net M V)
  | .serve w =>
    match (s.link w).next with
    | some .hello => some (s.finished w (s.link w).started id)
    | some (.run f) => some (s.finished w (s.link w).executed f)
    | some .report => some (s.finished w (s.link w).executed id)
    | some (.placements fs) => some (s.finished w (s.link w).executed fun m => fs.foldl (fun m f => f m) m)
    | _ => none
  | .connectPeer d w => if (s.peer d w).sent.isEmpty then some (s.pushPeer d w .hello) else none
  | .servePeer d w =>
    match (s.peer d w).next with
    | some .hello => some (s.setPeer d w (s.peer d w).started)
    | _ => none
  | .ask d =>
    match s.current d with
    | some (k, p) =>
      match p.stage with
      | .requested =>
        if 1 ≤ (s.peer d p.spec.src).handled then
          some ((s.pushPeer d p.spec.src (.fenced k)).setStage k .asked)
        else none
      | _ => none
    | none => none
  | .refuse d =>
    match s.current d with
    | some (k, p) =>
      match p.stage with
      | .requested => some (s.setStage k .refused)
      | _ => none
    | none => none
  | .read d w =>
    match (s.peer d w).next with
    | some (.fenced k) =>
      match s.pulls[k]? with
      | some p =>
        match p.stage with
        | .asked =>
          if p.spec.src = w ∧ p.fence ≤ (s.link w).connExecuted then
            some (((s.setStage k (.fetched (p.spec.get (s.mem w)))).happen w (.read k)).setPeer d w (s.peer d w).executed)
          else none
        | _ => none
      | none => none
    | _ => none
  | .store d =>
    match s.current d with
    | some (k, p) =>
      match p.stage with
      | .fetched v => some ((s.setStage k (.stored v)).happen d (.write k (p.spec.put v)))
      | _ => none
    | none => none
  | .answer d =>
    match s.current d with
    | some (k, p) =>
      match p.stage with
      | .stored v => some (s.setStage k (.answered (some v)))
      | .refused => some (s.setStage k (.answered none))
      | _ => none
    | none => none
  | .finish d =>
    match s.current d with
    | some (_, p) =>
      match p.stage with
      | .answered _ => some (s.finished d (s.link d).executed id)
      | _ => none
    | none => none
  | .other w f => some (s.happen w (.other f))
  | _ => none

def step (a : NetAction M V) : Option (Net M V) := (s.coordinate a).orElse fun _ => s.work a

/-! ## What the fences are for -/

/-- The events up to the last one of the first `n` commands of the coordinator. -/
def former (n : Nat) : List (WorkerEvent M) → List (WorkerEvent M)
  | [] => []
  | e :: log =>
    match e with
    | .cmd i _ => if i + 1 = n then [e] else e :: former n log
    | _ => e :: former n log

/-- A pull cannot be answered before another one: the request of that one is before its own on the connection to the
destination, or among the commands to the source that the fence covers. -/
def WaitsFor (k k' : Nat) : Prop :=
  ∃ p, s.pulls[k]? = some p ∧
    ((∃ i j : Nat, (s.link p.spec.dst).handled ≤ j ∧ j < i ∧ (s.link p.spec.dst).sent[i]? = some (LinkCmd.pull k) ∧
        (s.link p.spec.dst).sent[j]? = some (LinkCmd.pull k')) ∨
      ∃ j : Nat, (s.link p.spec.src).handled ≤ j ∧ j < p.fence ∧ (s.link p.spec.src).sent[j]? = some (LinkCmd.pull k'))

/-- The request of a pull has gone out, and the pull is not answered. -/
def InFlight (k : Nat) : Prop :=
  ∃ p, s.pulls[k]? = some p ∧ (∀ r, p.stage ≠ .answered r) ∧ ∃ w i : Nat, (s.link w).sent[i]? = some (LinkCmd.pull k)

end Net

end LlamaCpp.Rpc
