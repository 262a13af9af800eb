import LlamaCpp.Lib.Lru
import LlamaCpp.Lib.Runs

/-!
# Graphs that a worker keeps

A client sends every graph once per connection, under a uid, and later asks the worker to compute the graph of that uid
again.  It remembers the last uids it sent.  The worker has one cache for all of its connections, which drops the uid that was
used least recently.

The commands of a connection are on the way until the worker serves them, in order, and the connections are interleaved in any
way.  A fused chain is the recomputes that it consists of.  The send of a command fails or not (`status`), and so does the
computation of a graph (`computes`).
-/

namespace LlamaCpp.Rpc

open Function (update)

abbrev graphUidCacheCap : Nat := 512

structure Conn where
  client : Nat
  sock : Nat
deriving DecidableEq

/-- A command on the way to the worker. -/
inductive GraphCmd where
  | computeUid (uid : Nat)
  | recomputeUid (uid : Nat)

/-- What a client process has for the device: its socket, the uids it remembers and the socket they were sent on. -/
structure GraphClient where
  sock : Nat := 0
  /-- `sent_graph_uids_order`; `sent_graph_uids` has the same uids. -/
  sentUids : List Nat := []
  sentSock : Option Nat := none
  queue : List GraphCmd := []
  /-- The worker has closed the connection. -/
  closed : Bool := false

structure StoredGraph (G : Type) where
  graph : Option G := none
  ownerConn : Option Conn := none

structure ServedCmd where
  conn : Conn
  uid : Nat
  uploads : Bool

structure GraphShare (G : Type) where
  clients : Nat → GraphClient := fun _ => {}
  order : List Nat := []
  byUid : Nat → Option (StoredGraph G) := fun _ => none
  /-- What was served, the last first. -/
  served : List ServedCmd := []

inductive GraphAction where
  | compute (client uid : Nat) (status : Bool)
  | fused (client : Nat) (uids : List Nat) (status : Bool)
  | reconnect (client : Nat)
  | serve (client : Nat) (computes : Bool)

namespace GraphClient

/-- The uids that were sent on another socket are forgotten. -/
def refreshSock (c : GraphClient) : GraphClient :=
  if c.sentSock = some c.sock then c else { c with sentUids := [], sentSock := some c.sock }

def remember (c : GraphClient) (uid : Nat) : GraphClient :=
  let order := c.sentUids ++ [uid]
  { c with sentUids := if order.length > graphUidCacheCap / 8 then order.tail else order }

def send (c : GraphClient) (cmds : List GraphCmd) : GraphClient := { c with queue := c.queue ++ cmds }

/-- What `ggml_backend_rpc_graph_compute` does when a send fails. -/
def forget (c : GraphClient) : GraphClient := { c with sentUids := [], sentSock := none }

def close (c : GraphClient) : GraphClient := { c with closed := true, queue := [] }

/-- `ggml_backend_rpc_graph_compute` of a graph with a uid -/
def graphCompute (c : GraphClient) (nonempty : Bool) (uid : Nat) (status : Bool) : GraphClient :=
  let c := c.refreshSock
  if uid ∈ c.sentUids then
    if status then c.send [.recomputeUid uid] else c.forget
  else if !nonempty then c
  else if status then (c.send [.computeUid uid]).remember uid
  else c.forget

/-- The graphs of `ggml_backend_rpc_boundary_fused_send` -/
def fusedSend (c : GraphClient) (uids : List Nat) (status : Bool) : GraphClient :=
  if c.sentSock = some c.sock ∧ ∀ uid ∈ uids, uid ≠ 0 ∧ uid ∈ c.sentUids then
    if status then c.send (uids.map .recomputeUid) else c
  else c

end GraphClient

namespace GraphShare

variable {G : Type}

def conn (s : GraphShare G) (k : Nat) : Conn := ⟨k, (s.clients k).sock⟩

def setClient (s : GraphShare G) (k : Nat) (c : GraphClient) : GraphShare G :=
  { s with clients := update s.clients k c }

def refresh (s : GraphShare G) (uid : Nat) : GraphShare G :=
  { s with order := if uid ∈ s.order then s.order.erase uid ++ [uid] else s.order }

def store (s : GraphShare G) (uid : Nat) (g : StoredGraph G) : GraphShare G :=
  { s with byUid := update s.byUid uid (some g) }

/-- The place of a uid in the cache: `graph_compute_uid` before the graph is computed. -/
def place (s : GraphShare G) (uid : Nat) : GraphShare G :=
  match s.byUid uid with
  | none =>
    let n := s.order.length + 1 - graphUidCacheCap
    { s with
      order := s.order.drop n ++ [uid]
      byUid := update (fun u => if u ∈ s.order.take n then none else s.byUid u) uid (some {}) }
  | some _ => s.refresh uid

/-- `rpc_server::graph_compute_uid`, with the graph that the payload has, and whether it returns true -/
def graphComputeUid (s : GraphShare G) (conn : Conn) (uid : Nat) (graph : G) (computes : Bool) : GraphShare G × Bool :=
  let s := s.place uid
  if computes then (s.store uid ⟨some graph, some conn⟩, true)
  else (s.store uid { (s.byUid uid).getD {} with graph := none }, false)

/-- `rpc_server::graph_recompute_uid`, and whether it returns true -/
def graphRecomputeUid (s : GraphShare G) (conn : Conn) (uid : Nat) (computes : Bool) : GraphShare G × Bool :=
  match s.byUid uid with
  | none => (s, false)
  | some ⟨none, _⟩ => (s, false)
  | some ⟨some graph, owner⟩ =>
    let s := s.refresh uid
    if owner ≠ some conn then (s, false)
    else if computes then (s, true)
    else (s.store uid ⟨none, owner⟩, false)

/-- The client goes on, or its connection is closed. -/
def answer (s : GraphShare G) (k : Nat) (cmd : ServedCmd) (rest : List GraphCmd) (ok : Bool) : GraphShare G :=
  let c := s.clients k
  { s with
    clients := update s.clients k (if ok then { c with queue := rest } else c.close)
    served := cmd :: s.served }

variable (graphOf : Nat → Nat → G) (nonempty : Nat → Nat → Bool)

def step (s : GraphShare G) : GraphAction → Option (GraphShare G)
  | .compute k uid status =>
    if uid = 0 then none
    else some (s.setClient k ((s.clients k).graphCompute (nonempty k uid) uid status))
  | .fused k uids status => some (s.setClient k ((s.clients k).fusedSend uids status))
  | .reconnect k =>
    let c := s.clients k
    some (s.setClient k { c with sock := c.sock + 1, queue := [], closed := false })
  | .serve k computes =>
    if (s.clients k).closed then none
    else
      match (s.clients k).queue with
      | [] => none
      | .computeUid uid :: rest =>
        let r := s.graphComputeUid (s.conn k) uid (graphOf k uid) computes
        some (r.1.answer k ⟨s.conn k, uid, true⟩ rest r.2)
      | .recomputeUid uid :: rest =>
        let r := s.graphRecomputeUid (s.conn k) uid computes
        some (r.1.answer k ⟨s.conn k, uid, false⟩ rest r.2)

end GraphShare

end LlamaCpp.Rpc
