import LlamaCpp.Gguf.Context
import LlamaCpp.Lib.Packed
import LlamaCpp.Lib.Pipe
import LlamaCpp.Rpc.Tensor

/-!
# The responses of a worker

A `Line` is what a coordinator knows of one socket: the counters of its markers and commands, the placements that wait to be
sent together, the responses that are outstanding and the FETCH payloads that were read early.  The functions below are the
ones that send a command or read a response, each under the mutex of the socket from its first step to its last one, and a
step of `Line` is one of them or the worker executing a command.

A worker executes commands in order and answers in order.  What it holds can change by other connections at any time, which
is part of its state: a `World` may have what the others do before each command.  The conversions of `Codec` are those of
`ggml`, and the lists that they fill have the lengths that the callers give them.

Records that the code does not have: where the FETCHes are among the commands, what was received for each owner and each
blocking command, and whether a response was read when none was outstanding.
-/

namespace LlamaCpp.Rpc

open Readers (putLE getLE frame)
open Packed (takeEach)

abbrev Backend := Nat

/-- The format of a FETCH payload on the wire. -/
inductive WireFormat where
  | f32
  | f16
  | q8
deriving DecidableEq

abbrev typeF32 : UInt32 := 0

abbrev typeQ8 : Nat := 8

def ggmlRowSize (type n : Nat) : Nat := ggmlTypeSize type * n / ggmlBlckSize type

/-- The bytes of `logicalSize` bytes of values in a format. -/
def WireFormat.wireSize (fmt : WireFormat) (logicalSize : Nat) : Nat :=
  match fmt with
  | .f32 => logicalSize
  | .f16 => logicalSize / 2
  | .q8 => ggmlRowSize typeQ8 (logicalSize / 4)

/-- A list of `n` bytes that a function fills. -/
def resized (n : Nat) (bytes : List UInt8) : List UInt8 := (List.range n).map fun i => bytes.getD i 0

/-- The conversions of rows of floats. -/
structure Codec where
  quantize : WireFormat → List UInt8 → List UInt8
  dequantize : WireFormat → List UInt8 → List UInt8

/-- The FETCH segment of a fused command. -/
structure FetchSegment where
  tensor : RpcTensor
  offset : UInt64
  size : UInt64
  fmt : WireFormat
  zeroOk : Bool

/-- What a backend asks of `ggml_backend_rpc_boundary_fused_send` to fetch. -/
structure FetchRequest where
  tensor : RpcTensor
  offset : UInt64
  size : UInt64

/-- `rpc_msg_set_tensor_hash_batch_entry` -/
structure BatchEntry where
  tensor : RpcTensor
  offset : UInt64
  hash : UInt64

/-- `rpc_msg_set_tensor_hash_batch_rsp` -/
structure BatchRsp where
  nMiss : UInt64
  firstMissHash : UInt64

/-- The commands of a connection after HELLO.  `post` is any command that has no response, also the SET and GRAPH parts of a
fused command, and `call` any one whose response has a size that the client knows. -/
inductive RpcCmd (Post Req : Type) where
  | ping
  | post (p : Post)
  | call (r : Req)
  | setTensorHashBatch (entries : List BatchEntry)
  | sessionModel (model : List UInt8)
  | getManifest
  | graphFused (parts : List Post) (fetch : Option FetchSegment)

/-- `rpc_server`, as a state `World` and what the handlers make of it -/
structure RpcServer (World Post Req : Type) where
  post : World → Post → World
  outputSize : Req → UInt64
  answer : World → Req → World × List UInt8
  answer_length : ∀ w r, (answer w r).2.length = (outputSize r).toNat
  setTensorHashBatch : World → List BatchEntry → World × BatchRsp
  sessionModel : World → List UInt8 → World
  manifest : World → List UInt64
  manifest_length : ∀ w, 8 + 8 * (manifest w).length < 256 ^ 8
  tensorGet : World → RpcTensor → UInt64 → Nat → List UInt8
  tensorGet_length : ∀ w t o n, (tensorGet w t o n).length = n

/-- The answer to a marker that all values of a FETCH are zero. -/
abbrev zeroMarker : UInt8 := 0x5A

def allZero (bytes : List UInt8) : Bool := bytes.all (· = 0)

/-- A socket and the worker behind it.  `wireF16` and `wireQ8` are settings of the client, `start` is the state of the worker
after HELLO. -/
structure Connection (World Post Req : Type) where
  server : RpcServer World Post Req
  codec : Codec
  start : World
  serverMinor : Nat
  wireF16 : Bool
  wireQ8 : Bool

variable {World Post Req : Type}

namespace Connection

variable (c : Connection World Post Req)

/-! ## The worker -/

/-- The values of a FETCH in the format of its response. -/
def encodeFetch (f : FetchSegment) (full : List UInt8) : List UInt8 :=
  match f.fmt with
  | .q8 => resized (ggmlRowSize typeQ8 (f.size.toNat / 4)) (c.codec.quantize .q8 full)
  | .f16 => resized (f.size.toNat / 4 * 2) (c.codec.quantize .f16 full)
  | .f32 => full

/-- The FETCH part of `rpc_server::graph_fused` -/
def fetchResponse (f : FetchSegment) (full : List UInt8) : List UInt8 :=
  if f.zeroOk ∧ allZero full then [zeroMarker] else c.encodeFetch f full

/-- What a FETCH finds in the tensor. -/
def fetched (w : World) (parts : List Post) (f : FetchSegment) : List UInt8 :=
  c.server.tensorGet (parts.foldl c.server.post w) f.tensor f.offset f.size.toNat

/-- A command in `rpc_serve_client_loop`: the new state, and the data of the response, if there is one. -/
def serve (w : World) : RpcCmd Post Req → World × Option (List UInt8)
  | .ping => (w, some [])
  | .post p => (c.server.post w p, none)
  | .call r => ((c.server.answer w r).1, some (c.server.answer w r).2)
  | .setTensorHashBatch entries =>
    let rsp := (c.server.setTensorHashBatch w entries).2
    ((c.server.setTensorHashBatch w entries).1, some (putLE 8 rsp.nMiss.toNat ++ putLE 8 rsp.firstMissHash.toNat))
  | .sessionModel model => (c.server.sessionModel w model, none)
  | .getManifest =>
    let hashes := c.server.manifest w
    (w, some (putLE 8 hashes.length ++ hashes.flatMap fun h => putLE 8 h.toNat))
  | .graphFused parts fetch =>
    (parts.foldl c.server.post w,
      (fetch.map fun f => c.fetchResponse f (c.fetched w parts f)).filter fun response => response ≠ [])

/-- A command, with its response as it is on the stream. -/
def exec (w : World) (cmd : RpcCmd Post Req) : World × List UInt8 :=
  ((c.serve w cmd).1, ((c.serve w cmd).2.map frame).getD [])

/-! ## The client -/

end Connection

inductive PendingRsp where
  | ping
  | fetch (fmt : WireFormat) (zeroOk : Bool) (logicalSize : UInt64) (owner : Backend)
deriving DecidableEq

/-- `ggml_backend_rpc_async_state` of a socket, with the connection and the records. -/
structure Line (Post Req : Type) where
  pingsSent : Nat := 0
  pingsDone : Nat := 0
  /-- HELLO is the first command -/
  cmdsSent : Nat := 1
  manifestFetched : Bool := false
  announcedModel : List UInt8 := []
  manifest : List UInt64 := []
  pendingBatch : List BatchEntry := []
  rspFifo : List PendingRsp := []
  fetchStash : List (Backend × List UInt8) := []
  failed : Bool := false
  pipe : Pipe (RpcCmd Post Req) := {}
  fetches : List (Backend × Nat) := []
  delivered : List (Backend × List UInt8) := []
  received : List (Nat × List UInt8) := []
  starved : Bool := false

namespace Line

variable (l : Line Post Req)

def markFailed : Line Post Req := { l with failed := true }

def withPipe (p : Pipe (RpcCmd Post Req)) : Line Post Req := { l with pipe := p }

def withFifo (fifo : List PendingRsp) : Line Post Req := { l with rspFifo := fifo }

def out (cmd : RpcCmd Post Req) : Line Post Req := { l with pipe := l.pipe.send cmd, cmdsSent := l.cmdsSent + 1 }

def receive (place : Nat) (output : List UInt8) : Line Post Req :=
  { l with received := l.received ++ [(place, output)] }

/-- A response is read when none is outstanding. -/
def starve : Line Post Req := { l with starved := true }

/-- A marker has completed. -/
def pong : Line Post Req := { l with pingsDone := l.pingsDone + 1 }

def stash (owner : Backend) (payload : List UInt8) : Line Post Req :=
  { l with fetchStash := l.fetchStash ++ [(owner, payload)] }

/-- The payload of an owner that was stashed first. -/
def findOwn (owner : Backend) : Option (List UInt8) := (l.fetchStash.find? fun e => e.1 = owner).map Prod.snd

/-- It is taken out of the stash. -/
def eraseOwn (owner : Backend) : Line Post Req := { l with fetchStash := l.fetchStash.eraseP fun e => e.1 = owner }

end Line

/-- What happens on a connection. -/
inductive LineAction (Post Req : Type) where
  | serve
  | call (r : Req)
  | post (p : Post)
  | ping
  | sync (seq : Nat)
  | manifest (model : List UInt8)
  | queue (e : BatchEntry)
  | flush
  | getBatch (rs : List Req)
  | fusedSend (owner : Backend) (parts : List Post) (fetch : Option FetchRequest)
  | fusedReady (owner : Backend) (ready : List Bool)
  | fusedRecv (owner : Backend) (size : Nat)

/-- A function that can fail, in the middle of what it does. -/
abbrev LineM (Post Req : Type) := EStateM Unit (Line Post Req)

namespace Connection

variable (c : Connection World Post Req)

def recvData (n : Nat) : LineM Post Req (List UInt8) := fun l =>
  match l.pipe.recv c.exec c.start n with
  | some (bytes, p) => .ok bytes (l.withPipe p)
  | none => .error () l

/-- The first eight bytes of a response. -/
def recvSize : LineM Post Req Nat := do return getLE (← c.recvData 8)

/-- `payload` of a response, decoded -/
def decodeFetch (fmt : WireFormat) (logicalSize : Nat) (wire : List UInt8) : List UInt8 :=
  match fmt with
  | .f32 => wire
  | .f16 => resized logicalSize (c.codec.dequantize .f16 wire)
  | .q8 => resized logicalSize (c.codec.dequantize .q8 wire)

/-- `rpc_process_rsp_locked`, of the entry it has taken from the front -/
def readRsp : PendingRsp → LineM Post Req Unit
  | .ping => do
      if (← c.recvSize) ≠ 0 then throw ()
      else modify fun l => l.pong
  | .fetch fmt zeroOk logicalSize owner => do
      let outSize ← c.recvSize
      if zeroOk ∧ outSize = 1 then
        if (← c.recvData 1) ≠ [zeroMarker] then throw ()
        else modify fun l => l.stash owner (List.replicate logicalSize.toNat 0)
      else if outSize ≠ fmt.wireSize logicalSize.toNat then throw ()
      else
        let wire ← c.recvData (fmt.wireSize logicalSize.toNat)
        modify fun l => l.stash owner (c.decodeFetch fmt logicalSize.toNat wire)

def processRsp : LineM Post Req Unit := fun l =>
  match l.rspFifo with
  | [] => .error () l.starve
  | e :: fifo => c.readRsp e (l.withFifo fifo)

/-- `while (cond) { if (!rpc_process_rsp_locked(sock, st)) { return false; } }`.  A turn takes an entry or fails, so that as
many turns as there are entries and one more are enough. -/
def processFor (cond : Line Post Req → Bool) : Nat → LineM Post Req Unit
  | 0 => pure ()
  | fuel + 1 => do if cond (← get) then c.processRsp >>= fun _ => processFor cond fuel else pure ()

def processWhile (cond : Line Post Req → Bool) : LineM Post Req Unit := fun l =>
  c.processFor cond (l.rspFifo.length + 1) l

def drainAll : LineM Post Req Unit := c.processWhile fun l => !l.rspFifo.isEmpty

def drainPings (target : Nat) : LineM Post Req Unit := c.processWhile fun l => decide (l.pingsDone < target)

/-- A command goes out.  The result is its place among the commands. -/
def sendData (cmd : RpcCmd Post Req) : LineM Post Req Nat := fun l =>
  .ok l.pipe.sent.length (l.out cmd)

/-- The response of a size to the command at a place, as a blocking command reads it. -/
def recvOutput (place outputSize : Nat) : LineM Post Req (List UInt8) := do
  if (← c.recvSize) ≠ outputSize then throw ()
  else
    let output ← c.recvData outputSize
    modify fun l => l.receive place output
    return output

/-- `rpc_batch_flush_locked`, of a batch that is taken out of the queue.  `send_rpc_cmd_raw` does not look at the queue for
this command. -/
def sendBatch (batch : List BatchEntry) : LineM Post Req Unit := do
  c.drainAll
  let place ← sendData (.setTensorHashBatch batch)
  let output ← c.recvOutput place 16
  if getLE (output.take 8) ≠ 0 then throw ()

def batchFlush : LineM Post Req Unit := fun l =>
  if l.pendingBatch.isEmpty then .ok () l
  else c.sendBatch l.pendingBatch { l with pendingBatch := [] }

def sendRpcCmdRaw (cmd : RpcCmd Post Req) : LineM Post Req Nat := do
  c.batchFlush
  sendData cmd

/-- `send_rpc_cmd`, of a command with a response -/
def sendRpcCmd (r : Req) : LineM Post Req (List UInt8) := do
  c.drainAll
  let place ← c.sendRpcCmdRaw (.call r)
  c.recvOutput place (c.server.outputSize r).toNat

/-- What a caller does with a failure. -/
def orFail {α : Type} (x : LineM Post Req α) (l : Line Post Req) : Line Post Req :=
  match x l with
  | .ok _ l' => l'
  | .error _ l' => l'.markFailed

def pingAsync (l : Line Post Req) : Line Post Req :=
  match c.sendRpcCmdRaw .ping l with
  | .ok _ l' => { l' with rspFifo := l'.rspFifo ++ [.ping], pingsSent := l'.pingsSent + 1 }
  | .error _ l' => { l'.markFailed with pingsSent := l'.pingsSent + 1 }

def syncPings (seq : Nat) (l : Line Post Req) : Line Post Req :=
  let target := if seq = 0 then l.pingsSent else min seq l.pingsSent
  match c.drainPings target l with
  | .ok _ l' => l'
  | .error _ l' => { l'.markFailed with pingsDone := target, rspFifo := [] }

/-- The response of `RPC_CMD_GET_MANIFEST` -/
def recvManifest (place : Nat) : LineM Post Req (List UInt64) := do
  let outSize ← c.recvSize
  if outSize < 8 then throw ()
  else
    let count ← c.recvData 8
    if getLE count ≠ (outSize - 8) / 8 then throw ()
    else
      let hashes ← c.recvData (getLE count * 8)
      modify fun l => l.receive place (count ++ hashes)
      return takeEach 8 (getLE count) (fun bytes => UInt64.ofNat (getLE (bytes.take 8))) hashes

/-- The announcement of the model in `rpc_manifest_ensure` -/
def announce (model : List UInt8) : LineM Post Req Unit := do
  if 16 ≤ c.serverMinor ∧ model ≠ [] then
    let _ ← c.sendRpcCmdRaw (.sessionModel model)

/-- `rpc_manifest_ensure`, from where it clears the line -/
def fetchManifest (model : List UInt8) : LineM Post Req Unit := do
  c.drainAll
  c.announce model
  let place ← c.sendRpcCmdRaw .getManifest
  let hashes ← c.recvManifest place
  modify fun l => { l with manifest := l.manifest ++ hashes }

/-- `rpc_manifest_ensure`, where `model` is the model of the session -/
def manifestEnsure (model : List UInt8) (l : Line Post Req) : Line Post Req :=
  if c.serverMinor < 10 then l
  else
    let rescope := decide (16 ≤ c.serverMinor) && l.manifestFetched && decide (l.announcedModel ≠ model)
    if l.manifestFetched && !rescope then l
    else
      let l' := { l with
        manifestFetched := true
        announcedModel := model
        manifest := if rescope then [] else l.manifest }
      match c.fetchManifest model l' with
      | .ok _ l'' => l''
      | .error _ l'' => l''

/-- A placement whose hash the worker has is queued in `rpc_buffer_set_tensor_impl`. -/
def queuePlacement (e : BatchEntry) (l : Line Post Req) : Line Post Req :=
  if e.hash ∈ l.manifest then { l with pendingBatch := l.pendingBatch ++ [e] } else l

/-- The requests of `ggml_backend_rpc_get_tensor_batch` over a socket go out, those before the first one that fails.  The
result is their places. -/
def sendGets : List Req → Line Post Req → List (Nat × Req) × Line Post Req
  | [], l => ([], l)
  | r :: rs, l =>
    match c.sendRpcCmdRaw (.call r) l with
    | .ok place l' =>
      let rest := sendGets rs l'
      ((place, r) :: rest.1, rest.2)
    | .error _ l' => ([], l'.markFailed)

/-- The responses of `ggml_backend_rpc_get_tensor_batch` are read. -/
def recvGets : List (Nat × Req) → Line Post Req → Line Post Req
  | [], l => l
  | (place, r) :: rest, l => recvGets rest (orFail (c.recvOutput place (c.server.outputSize r).toNat) l)

/-- `ggml_backend_rpc_get_tensor_batch`, the requests over one socket -/
def getTensorBatch (rs : List Req) (l : Line Post Req) : Line Post Req :=
  match c.drainAll l with
  | .ok _ l' =>
    let sent := c.sendGets rs l'
    c.recvGets sent.1 sent.2
  | .error _ l' => l'.markFailed

/-- `fetch_fmt` of `ggml_backend_rpc_boundary_fused_send` -/
def fetchFmt (f : FetchRequest) : WireFormat :=
  if f.tensor.type = typeF32 ∧ f.size.toNat % 4 = 0 then
    if c.wireQ8 ∧ 13 ≤ c.serverMinor ∧ f.size.toNat / 4 % ggmlBlckSize typeQ8 = 0 then .q8
    else if c.wireF16 ∧ 12 ≤ c.serverMinor then .f16
    else .f32
  else .f32

def segmentOf (f : FetchRequest) : FetchSegment where
  tensor := f.tensor
  offset := f.offset
  size := f.size
  fmt := c.fetchFmt f
  zeroOk := decide (14 ≤ c.serverMinor)

/-- The FETCH that went out is outstanding. -/
def pushFetch (owner : Backend) (place : Nat) : Option FetchRequest → Line Post Req → Line Post Req
  | none, l => l
  | some f, l =>
    { l with
      rspFifo := l.rspFifo ++ [.fetch (c.fetchFmt f) (c.segmentOf f).zeroOk f.size owner]
      fetches := l.fetches ++ [(owner, place)] }

/-- `ggml_backend_rpc_boundary_fused_send`, where `parts` are the SET and the GRAPH segment -/
def fusedSend (owner : Backend) (parts : List Post) (fetch : Option FetchRequest) (l : Line Post Req) : Line Post Req :=
  if l.failed ∨ c.serverMinor < 6 then l
  else if parts.isEmpty ∧ fetch.isNone then l
  else
    orFail (do
      c.processWhile fun l => l.rspFifo.head? = some .ping
      let place ← c.sendRpcCmdRaw (.graphFused parts (fetch.map c.segmentOf))
      modify (c.pushFetch owner place fetch)) l

/-- `ggml_backend_rpc_boundary_fused_ready`.  The list has what `recv_ready` says at each turn. -/
def fusedReady (owner : Backend) : List Bool → Line Post Req → Line Post Req
  | [], l => l
  | ready :: more, l =>
    if (l.findOwn owner).isSome ∨ l.rspFifo.isEmpty ∨ !ready then l
    else
      match c.processRsp l with
      | .ok _ l' => fusedReady owner more l'
      | .error _ l' => l'.markFailed

/-- `ggml_backend_rpc_boundary_fused_recv`: the data and whether they were received. -/
def fusedRecv (owner : Backend) (size : Nat) (l : Line Post Req) : (List UInt8 × Bool) × Line Post Req :=
  match c.processWhile (fun l => (l.findOwn owner).isNone) l with
  | .error _ l' => ((List.replicate size 0, false), l'.markFailed)
  | .ok _ l' =>
    match l'.findOwn owner with
    | none => ((List.replicate size 0, false), l'.markFailed)
    | some payload =>
      if payload.length ≠ size then ((List.replicate size 0, false), l'.markFailed)
      else
        ((payload, true), { l'.eraseOwn owner with delivered := l'.delivered ++ [(owner, payload)] })

/-! ## Runs -/

def step (l : Line Post Req) : LineAction Post Req → Line Post Req
  | .serve => l.withPipe (l.pipe.serve c.exec c.start)
  | .call r => orFail (c.sendRpcCmd r) l
  | .post p => orFail (c.sendRpcCmdRaw (.post p)) l
  | .ping => c.pingAsync l
  | .sync seq => c.syncPings seq l
  | .manifest model => c.manifestEnsure model l
  | .queue e => queuePlacement e l
  | .flush => orFail c.batchFlush l
  | .getBatch rs => c.getTensorBatch rs l
  | .fusedSend owner parts fetch => c.fusedSend owner parts fetch l
  | .fusedReady owner ready => c.fusedReady owner ready l
  | .fusedRecv owner size => (c.fusedRecv owner size l).2

end Connection

end LlamaCpp.Rpc
