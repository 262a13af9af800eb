import LlamaCpp.Lib.Outcomes
import LlamaCpp.Lib.Runs
import LlamaCpp.Rpc.Responses
import Mathlib.Data.List.Forall2

/-!
# Every response goes to the one who asked

`InStep` is the invariant: the entries of the FIFO are the responses that can still be read, in their order, and of the
FETCHes of an owner the first ones were delivered, the next ones are in the stash and the last ones in the FIFO.  While a
command with a response is under way, `qs` are the places of the commands that are read next.

A function fails only after a queued placement has missed, and then it has left the line in step.
-/

namespace LlamaCpp.Rpc

open List Option

open Readers (putLE getLE frame)
open Pipe (worldAfter)
open Outcomes

variable {World Post Req : Type}

/-- A command that its sender waits for. -/
def RpcCmd.Blocking : RpcCmd Post Req → Prop
  | .call _ | .setTensorHashBatch _ | .getManifest => True
  | _ => False

def own {α : Type} (owner : Backend) (es : List (Backend × α)) : List α := (es.filter fun e => e.1 = owner).map Prod.snd

def PendingRsp.ownedBy (owner : Backend) : PendingRsp → Bool
  | .fetch _ _ _ o => o = owner
  | .ping => false

/-- A FETCH of values of a tensor of floats, which have four bytes each. -/
def FetchRequest.Floats (f : FetchRequest) : Prop := f.tensor.type = typeF32 ∧ 0 < f.size.toNat ∧ 4 ∣ f.size.toNat

instance (f : FetchRequest) : Decidable f.Floats := inferInstanceAs (Decidable (_ ∧ _ ∧ _))

/-- Its segment, in a format that has the values. -/
structure FetchSegment.Floats (f : FetchSegment) : Prop where
  pos : 0 < f.size.toNat
  whole : 4 ∣ f.size.toNat
  blocks : f.fmt = .q8 → 32 ∣ f.size.toNat / 4

theorem FetchSegment.Floats.wireSize_bounds {f : FetchSegment} (h : f.Floats) :
    1 < f.fmt.wireSize f.size.toNat ∧ f.fmt.wireSize f.size.toNat < 256 ^ 8 := by
  have hsize := f.size.toNat_lt
  have hpos := h.pos
  have hwhole := h.whole
  cases hfmt : f.fmt with
  | f32 | f16 => exact ⟨by simp only [WireFormat.wireSize]; omega, by simp only [WireFormat.wireSize]; omega⟩
  | q8 =>
    have hblocks := h.blocks hfmt
    have hrow : WireFormat.q8.wireSize f.size.toNat = 34 * (f.size.toNat / 4) / 32 := rfl
    rw [hrow]
    omega

theorem resized_length (n : Nat) (bytes : List UInt8) : (resized n bytes).length = n := by
  rw [resized, length_map, length_range]

namespace Connection

variable (c : Connection World Post Req)

def answerAt (sent : List (RpcCmd Post Req)) (i : Nat) : Option (List UInt8) :=
  sent[i]?.bind fun cmd => (c.serve (worldAfter c.exec c.start (sent.take i)) cmd).2

/-- What the owner of a FETCH is to receive for what the FETCH found. -/
def payload (f : FetchSegment) (full : List UInt8) : List UInt8 :=
  if f.zeroOk ∧ allZero full then List.replicate f.size.toNat 0
  else c.decodeFetch f.fmt f.size.toNat (c.encodeFetch f full)

def payloadAt (sent : List (RpcCmd Post Req)) (i : Nat) : List UInt8 :=
  match sent[i]? with
  | some (.graphFused parts (some f)) => c.payload f (c.fetched (worldAfter c.exec c.start (sent.take i)) parts f)
  | _ => []

def fetchSizeAt (sent : List (RpcCmd Post Req)) (i : Nat) : Option Nat :=
  match sent[i]? with
  | some (.graphFused _ (some f)) => some f.size.toNat
  | _ => none

/-- An entry of the FIFO is for the response to a command. -/
def Awaits (sent : List (RpcCmd Post Req)) : PendingRsp → Nat → Prop
  | .ping, i => sent[i]? = some .ping
  | .fetch fmt zeroOk size _, i => ∃ parts f, sent[i]? = some (.graphFused parts (some f)) ∧ f.fmt = fmt ∧
      f.zeroOk = zeroOk ∧ f.size = size ∧ f.Floats

/-- A batch of queued placements was answered with misses. -/
def Missed (sent : List (RpcCmd Post Req)) : Prop :=
  ∃ i entries, sent[i]? = some (.setTensorHashBatch entries) ∧
    (c.server.setTensorHashBatch (worldAfter c.exec c.start (sent.take i)) entries).2.nMiss ≠ 0

/-- The payloads of an owner that are still to be read. -/
def outstanding (sent : List (RpcCmd Post Req)) (owner : Backend) (fifo : List PendingRsp) (ps : List Nat) : List (List UInt8) :=
  ((fifo.zip ps).filter fun e => e.1.ownedBy owner).map fun e => c.payloadAt sent e.2

def onStream (sent : List (RpcCmd Post Req)) (ps : List Nat) : List UInt8 :=
  ps.flatMap fun i => frame ((c.answerAt sent i).getD [])

/-- The responses of the FIFO are at the places `ps`, and those of commands under way at the places `qs`. -/
structure InStep (l : Line Post Req) (ps qs : List Nat) : Prop where
  waits : List.Forall₂ (Awaits l.pipe.sent) l.rspFifo ps
  unread : l.pipe.unread c.exec c.start = c.onStream l.pipe.sent (ps ++ qs)
  asked : ∀ i ∈ qs, i < l.pipe.sent.length
  placed : ∀ e ∈ l.fetches, e.2 < l.pipe.sent.length
  kept : ∀ owner, (own owner l.fetches).map (c.payloadAt l.pipe.sent) =
    own owner l.delivered ++ own owner l.fetchStash ++ c.outstanding l.pipe.sent owner l.rspFifo ps
  pings : l.pingsDone + l.rspFifo.count .ping ≤ l.pingsSent
  allPings : ¬ c.Missed l.pipe.sent → l.pingsDone + l.rspFifo.count .ping = l.pingsSent
  failed : l.failed = true → c.Missed l.pipe.sent
  starved : l.starved = true → c.Missed l.pipe.sent
  received : ∀ e ∈ l.received, c.answerAt l.pipe.sent e.1 = some e.2
  answered : ∀ i cmd, l.pipe.sent[i]? = some cmd → cmd.Blocking → i ∈ qs ∨ ∃ output, (i, output) ∈ l.received
  cmds : l.cmdsSent = l.pipe.sent.length + 1

/-- A function has failed: a queued placement has missed, and the line is in step. -/
def FailsInStep (_ : Unit) (l : Line Post Req) : Prop := c.InStep l [] [] ∧ c.Missed l.pipe.sent

variable {c} {l l' : Line Post Req} {sent : List (RpcCmd Post Req)} {ps qs : List Nat}
  {i place : Nat} {fifo : List PendingRsp} {data full : List UInt8} {r : Pipe (RpcCmd Post Req)}
  {f : FetchSegment}

/-! ### What was sent stays as it is -/

theorem getElem?_sent (h : i < sent.length) (cmd : RpcCmd Post Req) : (sent ++ [cmd])[i]? = sent[i]? :=
  getElem?_append_left h

theorem take_sent (h : i < sent.length) (cmd : RpcCmd Post Req) : (sent ++ [cmd]).take i = sent.take i :=
  take_append_of_le_length h.le

theorem answerAt_append (h : i < sent.length) (cmd : RpcCmd Post Req) :
    c.answerAt (sent ++ [cmd]) i = c.answerAt sent i := by
  rw [answerAt, answerAt, getElem?_sent h, take_sent h]

theorem answerAt_last (sent : List (RpcCmd Post Req)) (cmd : RpcCmd Post Req) :
    c.answerAt (sent ++ [cmd]) sent.length = (c.serve (worldAfter c.exec c.start sent) cmd).2 := by
  rw [answerAt, getElem?_concat_length, take_left, bind_some]

theorem payloadAt_append (h : i < sent.length) (cmd : RpcCmd Post Req) :
    c.payloadAt (sent ++ [cmd]) i = c.payloadAt sent i := by
  rw [payloadAt, payloadAt, getElem?_sent h, take_sent h]

theorem Awaits.lt {e : PendingRsp} (h : Awaits sent e i) : i < sent.length := by
  cases e with
  | ping => exact (List.getElem?_eq_some_iff.mp h).1
  | fetch fmt zeroOk size owner =>
    obtain ⟨parts, f, hi, _⟩ := h
    exact (List.getElem?_eq_some_iff.mp hi).1

theorem Awaits.append {e : PendingRsp} (h : Awaits sent e i) (cmd : RpcCmd Post Req) :
    Awaits (sent ++ [cmd]) e i := by
  have hlt := h.lt
  cases e with
  | ping => exact (getElem?_sent hlt cmd).trans h
  | fetch fmt zeroOk size owner =>
    obtain ⟨parts, f, hi, hf⟩ := h
    exact ⟨parts, f, (getElem?_sent hlt cmd).trans hi, hf⟩

theorem Missed.append (h : c.Missed sent) (cmd : RpcCmd Post Req) : c.Missed (sent ++ [cmd]) := by
  obtain ⟨i, entries, hi, hmiss⟩ := h
  have hlt : i < sent.length := (List.getElem?_eq_some_iff.mp hi).1
  refine ⟨i, entries, (getElem?_sent hlt cmd).trans hi, ?_⟩
  rw [take_sent hlt]
  exact hmiss

theorem onStream_append (h : ∀ i ∈ ps, i < sent.length) (cmd : RpcCmd Post Req) :
    c.onStream (sent ++ [cmd]) ps = c.onStream sent ps := by
  refine flatMap_congr fun i hi => ?_
  rw [answerAt_append (h i hi)]

theorem outstanding_append (h : ∀ i ∈ ps, i < sent.length) (owner : Backend) (cmd : RpcCmd Post Req) :
    c.outstanding (sent ++ [cmd]) owner fifo ps = c.outstanding sent owner fifo ps := by
  refine map_congr_left fun e he => ?_
  exact payloadAt_append (h _ (of_mem_zip (mem_of_mem_filter he)).2) cmd

theorem places_lt (h : List.Forall₂ (Awaits sent) fifo ps) : ∀ i ∈ ps, i < sent.length := by
  induction h with
  | nil => exact fun i hi => nomatch hi
  | cons he _ ih => exact forall_mem_cons.mpr ⟨he.lt, ih⟩

/-! ### A command goes out -/

/-- The places of responses that a command adds are `more`. -/
theorem InStep.out (h : c.InStep l ps qs) {cmd : RpcCmd Post Req} {more : List Nat}
    (hbytes : (c.exec (worldAfter c.exec c.start l.pipe.sent) cmd).2 = c.onStream (l.pipe.sent ++ [cmd]) more)
    (hmore : ∀ i ∈ more, i = l.pipe.sent.length) (hblock : cmd.Blocking → l.pipe.sent.length ∈ more) :
    c.InStep (l.out cmd) ps (qs ++ more) where
  waits := h.waits.imp fun _ _ he => he.append cmd
  unread := by
    have hps := places_lt h.waits
    have hold : c.onStream (l.pipe.sent ++ [cmd]) (ps ++ qs) = c.onStream l.pipe.sent (ps ++ qs) :=
      onStream_append (forall_mem_append.mpr ⟨hps, h.asked⟩) cmd
    have hsplit : c.onStream (l.pipe.sent ++ [cmd]) (ps ++ (qs ++ more)) =
        c.onStream (l.pipe.sent ++ [cmd]) (ps ++ qs) ++ c.onStream (l.pipe.sent ++ [cmd]) more := by
      rw [← append_assoc, onStream, flatMap_append]
      rfl
    show (l.pipe.send cmd).unread c.exec c.start = c.onStream (l.pipe.sent ++ [cmd]) (ps ++ (qs ++ more))
    rw [Pipe.unread_send, hsplit, hold, h.unread, hbytes]
  asked := by
    intro i hi
    show i < (l.pipe.sent ++ [cmd]).length
    rw [length_append, length_singleton]
    rcases List.mem_append.mp hi with hq | hm
    · exact (h.asked i hq).trans (Nat.lt_succ_self _)
    · rw [hmore i hm]
      exact Nat.lt_succ_self _
  placed := by
    intro e he
    show e.2 < (l.pipe.sent ++ [cmd]).length
    rw [length_append, length_singleton]
    exact (h.placed e he).trans (Nat.lt_succ_self _)
  kept := by
    intro owner
    have hown : (own owner l.fetches).map (c.payloadAt (l.pipe.sent ++ [cmd])) =
        (own owner l.fetches).map (c.payloadAt l.pipe.sent) := by
      refine map_congr_left fun i hi => ?_
      obtain ⟨e, he, rfl⟩ := List.mem_map.mp hi
      exact payloadAt_append (h.placed e (mem_of_mem_filter he)) cmd
    exact hown.trans ((h.kept owner).trans (by
      rw [← outstanding_append (places_lt h.waits) owner cmd]
      rfl))
  pings := h.pings
  allPings := fun hmiss => h.allPings fun hm => hmiss (hm.append cmd)
  failed := fun hf => (h.failed hf).append cmd
  starved := fun hf => (h.starved hf).append cmd
  received := by
    intro e he
    have hlt : e.1 < l.pipe.sent.length := by
      have hrec := h.received e he
      by_contra hge
      rw [answerAt, getElem?_eq_none (Nat.le_of_not_lt hge)] at hrec
      cases hrec
    exact (answerAt_append hlt cmd).trans (h.received e he)
  answered := by
    intro i cmd' hi hb
    have hlt : i < (l.pipe.sent ++ [cmd]).length := (List.getElem?_eq_some_iff.mp hi).1
    rcases Nat.lt_or_ge i l.pipe.sent.length with hold | hnew
    · have hi' : l.pipe.sent[i]? = some cmd' := (getElem?_sent hold cmd).symm.trans hi
      exact (h.answered i cmd' hi' hb).imp_left fun hq => mem_append_left more hq
    · rw [length_append, length_singleton] at hlt
      obtain rfl : i = l.pipe.sent.length := by omega
      have hcmd : (l.pipe.sent ++ [cmd])[l.pipe.sent.length]? = some cmd' := hi
      rw [getElem?_concat_length] at hcmd
      cases hcmd
      exact .inl (mem_append_right qs (hblock hb))
  cmds := by
    show l.cmdsSent + 1 = (l.pipe.sent ++ [cmd]).length + 1
    rw [h.cmds, length_append, length_singleton]

/-- A command with a response, whose place is read next. -/
theorem InStep.outAnswered (h : c.InStep l ps qs) (cmd : RpcCmd Post Req)
    (hdata : (c.serve (worldAfter c.exec c.start l.pipe.sent) cmd).2 = some data) :
    c.InStep (l.out cmd) ps (qs ++ [l.pipe.sent.length]) ∧
      c.answerAt (l.out cmd).pipe.sent l.pipe.sent.length = some data := by
  have hanswer : c.answerAt (l.pipe.sent ++ [cmd]) l.pipe.sent.length = some data := (answerAt_last _ cmd).trans hdata
  refine ⟨h.out ?_ (fun i hi => mem_singleton.mp hi) (fun _ => mem_singleton.mpr rfl), hanswer⟩
  rw [onStream, flatMap_singleton, hanswer, exec, hdata]
  rfl

theorem InStep.outSilent (h : c.InStep l ps qs) {cmd : RpcCmd Post Req}
    (hdata : (c.serve (worldAfter c.exec c.start l.pipe.sent) cmd).2 = none) (hblock : ¬ cmd.Blocking) :
    c.InStep (l.out cmd) ps qs := by
  have hout : c.InStep (l.out cmd) ps (qs ++ []) :=
    h.out (by rw [exec, hdata]; rfl) (fun i hi => nomatch hi) fun hb => absurd hb hblock
  rwa [append_nil] at hout

/-! ### A response is read -/

/-- What a read of responses leaves as it is. -/
structure Quiet (l l' : Line Post Req) : Prop where
  pending : l'.pendingBatch = l.pendingBatch
  sent : l'.pipe.sent = l.pipe.sent
  fetches : l'.fetches = l.fetches
  delivered : l'.delivered = l.delivered
  pingsSent : l'.pingsSent = l.pingsSent

theorem Quiet.refl (l : Line Post Req) : Quiet l l := ⟨rfl, rfl, rfl, rfl, rfl⟩

theorem Quiet.trans {l'' : Line Post Req} (h : Quiet l l') (h' : Quiet l' l'') : Quiet l l'' :=
  ⟨h'.pending.trans h.pending, h'.sent.trans h.sent, h'.fetches.trans h.fetches, h'.delivered.trans h.delivered, h'.pingsSent.trans h.pingsSent⟩

theorem recvSize_spec {rest : List UInt8} (h : l.pipe.unread c.exec c.start = frame data ++ rest)
    (hdata : data.length < 256 ^ 8) :
    ∃ q, c.recvSize l = .ok data.length (l.withPipe q) ∧ q.sent = l.pipe.sent ∧ q.unread c.exec c.start = data ++ rest := by
  obtain ⟨bytes, q, hq, hsize, hsent, hunread⟩ := Pipe.recv_size h hdata
  have hrecv : c.recvData 8 l = .ok bytes (l.withPipe q) := by rw [recvData, hq]
  refine ⟨q, ?_, hsent, hunread⟩
  rw [recvSize, bind_ok hrecv, hsize]
  rfl

theorem recvNext {rest : List UInt8} (h : l.pipe.unread c.exec c.start = frame data ++ rest)
    (hdata : data.length < 256 ^ 8) : ∃ q r, c.recvSize l = .ok data.length (l.withPipe q) ∧
      c.recvData data.length (l.withPipe q) = .ok data (l.withPipe r) ∧ r.sent = l.pipe.sent ∧
      r.unread c.exec c.start = rest := by
  obtain ⟨q, hsize, hqsent, hqunread⟩ := recvSize_spec h hdata
  obtain ⟨r, hr, hrsent, hrunread⟩ := Pipe.recv_data hqunread
  refine ⟨q, r, hsize, ?_, hrsent.trans hqsent, hrunread⟩
  rw [recvData, show (l.withPipe q).pipe = q from rfl, hr]
  rfl

/-- A blocking command has the response that was next. -/
theorem InStep.receive {output : List UInt8} (h : c.InStep l [] (place :: qs))
    (hr : r.sent = l.pipe.sent) (hunread : r.unread c.exec c.start = c.onStream l.pipe.sent qs)
    (hanswer : c.answerAt l.pipe.sent place = some output) :
    c.InStep ((l.withPipe r).receive place output) [] qs := by
  obtain ⟨sent, executed, stream, hle⟩ := r
  obtain rfl : sent = l.pipe.sent := hr
  exact
    { h with
      unread := hunread
      asked := fun i hi => h.asked i (mem_cons_of_mem place hi)
      received := by
        intro e he
        rcases List.mem_append.mp he with hold | hnew
        · exact h.received e hold
        · obtain rfl := mem_singleton.mp hnew
          exact hanswer
      answered := by
        intro i cmd hi hb
        rcases h.answered i cmd hi hb with hq | ⟨out, hout⟩
        · rcases mem_cons.mp hq with rfl | hq
          · exact .inr ⟨output, mem_append_right _ (mem_singleton.mpr rfl)⟩
          · exact .inl hq
        · exact .inr ⟨out, mem_append_left _ hout⟩ }

/-- The line after a blocking command has read its response. -/
theorem recvOutput_spec {output : List UInt8} (h : c.InStep l [] (place :: qs))
    (hanswer : c.answerAt l.pipe.sent place = some output) (hlen : output.length < 256 ^ 8) :
    ∃ l', c.recvOutput place output.length l = .ok output l' ∧ c.InStep l' [] qs ∧ Quiet l l' := by
  have hunread : l.pipe.unread c.exec c.start = frame output ++ c.onStream l.pipe.sent qs := by
    rw [h.unread, onStream, nil_append, flatMap_cons, hanswer]
    rfl
  obtain ⟨q, r, hsize, hdata, hsent, hrest⟩ := recvNext hunread hlen
  refine ⟨(l.withPipe r).receive place output, ?_, h.receive hsent hrest hanswer, ⟨rfl, hsent, rfl, rfl, rfl⟩⟩
  rw [recvOutput, bind_ok hsize, if_neg (not_not.mpr rfl), bind_ok hdata]
  rfl

/-! ### The responses of the FIFO -/

theorem encodeFetch_length (h : f.Floats) (hfull : full.length = f.size.toNat) :
    (c.encodeFetch f full).length = f.fmt.wireSize f.size.toNat := by
  have hwhole := h.whole
  rw [encodeFetch]
  cases f.fmt with
  | f32 => exact hfull
  | f16 =>
    show (resized _ _).length = f.size.toNat / 2
    rw [resized_length]
    omega
  | q8 => exact resized_length _ _

theorem payload_length (f : FetchSegment) (hfull : full.length = f.size.toNat) :
    (c.payload f full).length = f.size.toNat := by
  rw [payload]
  split
  · exact length_replicate
  · simp only [decodeFetch, encodeFetch]
    cases f.fmt with
    | f32 => exact hfull
    | f16 | q8 => exact resized_length _ _

/-- The response to a FETCH of floats is a message, of the size that its reader expects or the marker. -/
theorem serve_fetch (w : World) (parts : List Post) (h : f.Floats) :
    (c.serve w (.graphFused parts (some f))).2 = some (c.fetchResponse f (c.fetched w parts f)) := by
  have hfull : (c.fetched w parts f).length = f.size.toNat := c.server.tensorGet_length _ _ _ _
  have hne : c.fetchResponse f (c.fetched w parts f) ≠ [] := by
    rw [fetchResponse]
    split
    · exact cons_ne_nil _ _
    · rw [← length_pos_iff, encodeFetch_length h hfull]
      exact Nat.lt_of_succ_lt h.wireSize_bounds.1
  simp only [serve, map_some, filter_some, decide_eq_true hne, if_true]

/-- A FETCH response that is next is stashed as the payload of its owner. -/
theorem readRsp_fetch {rest : List UInt8} (owner : Backend) (h : f.Floats)
    (hfull : full.length = f.size.toNat)
    (hunread : l.pipe.unread c.exec c.start = frame (c.fetchResponse f full) ++ rest) :
    ∃ r, c.readRsp (.fetch f.fmt f.zeroOk f.size owner) l = .ok () ((l.withPipe r).stash owner (c.payload f full)) ∧
      r.sent = l.pipe.sent ∧ r.unread c.exec c.start = rest := by
  obtain ⟨hone, hlt⟩ := h.wireSize_bounds
  by_cases hzero : f.zeroOk = true ∧ allZero full = true
  · have hmarker : c.fetchResponse f full = [zeroMarker] := if_pos hzero
    have hpayload : c.payload f full = List.replicate f.size.toNat 0 := if_pos hzero
    rw [hmarker] at hunread
    obtain ⟨q, r, hsize, hdata, hsent, hrest⟩ := recvNext hunread (by simp)
    refine ⟨r, ?_, hsent, hrest⟩
    have hdata' : c.recvData 1 (l.withPipe q) = .ok [zeroMarker] (l.withPipe r) := hdata
    rw [readRsp, bind_ok hsize, if_pos ⟨hzero.1, rfl⟩, bind_ok hdata', if_neg (not_not.mpr rfl), hpayload]
    rfl
  · have hencoded : c.fetchResponse f full = c.encodeFetch f full := if_neg hzero
    have hpayload : c.payload f full = c.decodeFetch f.fmt f.size.toNat (c.encodeFetch f full) := if_neg hzero
    have hlen := encodeFetch_length (c := c) h hfull
    rw [hencoded] at hunread
    obtain ⟨q, r, hsize, hdata, hsent, hrest⟩ := recvNext hunread (by rw [hlen]; exact hlt)
    rw [hlen] at hsize hdata
    refine ⟨r, ?_, hsent, hrest⟩
    have hnot : ¬ (f.zeroOk = true ∧ f.fmt.wireSize f.size.toNat = 1) := fun hz => absurd hz.2 (Nat.ne_of_gt hone)
    rw [readRsp, bind_ok hsize, if_neg hnot, if_neg (not_not.mpr rfl), bind_ok hdata, hpayload]
    rfl

/-- The entry at the front, and the place of its response, are taken. -/
theorem InStep.processPing (h : c.InStep l (place :: ps) []) (hfifo : l.rspFifo = .ping :: fifo)
    (hr : r.sent = l.pipe.sent) (hunread : r.unread c.exec c.start = c.onStream l.pipe.sent ps) :
    c.InStep (((l.withFifo fifo).withPipe r).pong) ps [] := by
  obtain ⟨sent, executed, stream, hle⟩ := r
  obtain rfl : sent = l.pipe.sent := hr
  have hwaits := h.waits
  have hpings := h.pings
  have hall := h.allPings
  rw [hfifo] at hwaits hpings hall
  rw [count_cons_self] at hpings hall
  exact
    { waits := (forall₂_cons.mp hwaits).2
      unread := hunread.trans (by rw [append_nil]; rfl)
      asked := h.asked
      placed := h.placed
      kept := by
        intro owner
        refine (h.kept owner).trans ?_
        rw [hfifo]
        rfl
      pings := by
        show l.pingsDone + 1 + fifo.count .ping ≤ l.pingsSent
        omega
      allPings := by
        intro hmiss
        have := hall hmiss
        show l.pingsDone + 1 + fifo.count .ping = l.pingsSent
        omega
      failed := h.failed
      starved := h.starved
      received := h.received
      answered := h.answered
      cmds := h.cmds }

theorem own_append {α : Type} (owner : Backend) (es : List (Backend × α)) (o : Backend) (x : α) :
    own owner (es ++ [(o, x)]) = own owner es ++ if o = owner then [x] else [] := by
  rw [own, own, filter_append, map_append]
  by_cases ho : o = owner
  · rw [if_pos ho, filter_cons_of_pos (by exact decide_eq_true ho)]
    rfl
  · rw [if_neg ho, filter_cons_of_neg (by simpa using ho)]
    rfl

theorem outstanding_fetch (fmt : WireFormat) (zeroOk : Bool) (size : UInt64) (o owner : Backend) (fifo : List PendingRsp)
    (place : Nat) (ps : List Nat) :
    c.outstanding sent owner (.fetch fmt zeroOk size o :: fifo) (place :: ps) =
      (if o = owner then [c.payloadAt sent place] else []) ++ c.outstanding sent owner fifo ps := by
  rw [outstanding, outstanding, zip_cons_cons]
  by_cases ho : o = owner
  · rw [if_pos ho, filter_cons_of_pos (by exact decide_eq_true ho)]
    rfl
  · rw [if_neg ho, filter_cons_of_neg (by simpa [PendingRsp.ownedBy] using ho)]
    rfl

theorem InStep.processFetch {fmt : WireFormat} {zeroOk : Bool} {size : UInt64} {o : Backend}
    (h : c.InStep l (place :: ps) []) (hfifo : l.rspFifo = .fetch fmt zeroOk size o :: fifo)
    (hr : r.sent = l.pipe.sent) (hunread : r.unread c.exec c.start = c.onStream l.pipe.sent ps) :
    c.InStep (((l.withFifo fifo).withPipe r).stash o (c.payloadAt l.pipe.sent place)) ps [] := by
  obtain ⟨sent, executed, stream, hle⟩ := r
  obtain rfl : sent = l.pipe.sent := hr
  have hwaits := h.waits
  have hpings := h.pings
  have hall := h.allPings
  rw [hfifo] at hwaits hpings hall
  rw [count_cons_of_ne (by exact PendingRsp.noConfusion)] at hpings hall
  exact
    { waits := (forall₂_cons.mp hwaits).2
      unread := hunread.trans (by rw [append_nil]; rfl)
      asked := h.asked
      placed := h.placed
      kept := by
        intro owner
        refine (h.kept owner).trans ?_
        show _ = own owner l.delivered ++ own owner (l.fetchStash ++ [(o, c.payloadAt l.pipe.sent place)]) ++ _
        rw [hfifo, own_append, outstanding_fetch]
        simp only [append_assoc]
        rfl
      pings := hpings
      allPings := hall
      failed := h.failed
      starved := h.starved
      received := h.received
      answered := h.answered
      cmds := h.cmds }

/-- The response of the entry at the front is read. -/
theorem processRsp_spec (h : c.InStep l (place :: ps) []) :
    ∃ l', c.processRsp l = .ok () l' ∧ c.InStep l' ps [] ∧ Quiet l l' ∧ l'.rspFifo.length + 1 = l.rspFifo.length := by
  obtain ⟨e, fifo, he, _, hfifo⟩ := forall₂_cons_right_iff.mp h.waits
  have hprocess : c.processRsp l = c.readRsp e (l.withFifo fifo) := by rw [processRsp, hfifo]
  have hunread : (l.withFifo fifo).pipe.unread c.exec c.start =
      frame ((c.answerAt l.pipe.sent place).getD []) ++ c.onStream l.pipe.sent ps := by
    refine h.unread.trans ?_
    rw [append_nil, onStream, flatMap_cons]
    rfl
  have hlen : fifo.length + 1 = l.rspFifo.length := by rw [hfifo]; rfl
  cases e with
  | ping =>
    have hanswer : c.answerAt l.pipe.sent place = some [] := by
      rw [answerAt, show l.pipe.sent[place]? = some RpcCmd.ping from he]
      rfl
    rw [hanswer] at hunread
    obtain ⟨q, hsize, hsent, hrest⟩ := recvSize_spec hunread (by decide)
    refine ⟨((l.withFifo fifo).withPipe q).pong, ?_, h.processPing hfifo hsent hrest, ⟨rfl, hsent, rfl, rfl, rfl⟩, hlen⟩
    rw [hprocess, readRsp, bind_ok hsize]
    rfl
  | fetch fmt zeroOk size o =>
    obtain ⟨parts, f, hi, rfl, rfl, rfl, hfloats⟩ := he
    obtain ⟨full, hfull⟩ : ∃ full, full = c.fetched (worldAfter c.exec c.start (l.pipe.sent.take place)) parts f := ⟨_, rfl⟩
    have hanswer : c.answerAt l.pipe.sent place = some (c.fetchResponse f full) := by
      rw [answerAt, hi, bind_some, serve_fetch _ _ hfloats, hfull]
    have hpayload : c.payloadAt l.pipe.sent place = c.payload f full := by
      rw [payloadAt, hi, hfull]
    have hlength : full.length = f.size.toNat := by
      rw [hfull]
      exact c.server.tensorGet_length _ _ _ _
    rw [hanswer] at hunread
    obtain ⟨r, hread, hsent, hrest⟩ := readRsp_fetch o hfloats hlength hunread
    refine ⟨((l.withFifo fifo).withPipe r).stash o (c.payload f full), ?_, ?_, ⟨rfl, hsent, rfl, rfl, rfl⟩, hlen⟩
    · rw [hprocess, hread]
    · rw [← hpayload]
      exact h.processFetch hfifo hsent hrest

theorem InStep.fifo_nil (h : c.InStep l [] qs) : l.rspFifo = [] := forall₂_nil_right_iff.mp h.waits

theorem processFor_spec (cond : Line Post Req → Bool) {fuel : Nat} (h : c.InStep l ps []) (hfuel : l.rspFifo.length < fuel) :
    Ends (fun _ l' => ∃ ps', c.InStep l' ps' [] ∧ Quiet l l' ∧ cond l' = false)
      (fun _ l' => ∃ m, c.InStep m [] [] ∧ Quiet l m ∧ cond m = true ∧ l' = m.starve) (c.processFor cond fuel l) := by
  induction fuel generalizing l ps with
  | zero => exact absurd hfuel (Nat.not_lt_zero _)
  | succ fuel ih =>
    have hturn : c.processFor cond (fuel + 1) l =
        if cond l then (c.processRsp >>= fun _ => c.processFor cond fuel) l else .ok () l := by
      show (if cond l then c.processRsp >>= fun _ => c.processFor cond fuel else pure ()) l = _
      split <;> rfl
    rw [hturn]
    cases hcond : cond l with
    | false =>
      rw [if_neg Bool.false_ne_true]
      exact ⟨ps, h, .refl l, hcond⟩
    | true =>
      rw [if_pos rfl]
      cases ps with
      | nil =>
        have herror : c.processRsp l = .error () l.starve := by rw [processRsp, h.fifo_nil]
        rw [bind_error herror]
        exact ⟨l, h, .refl l, hcond, rfl⟩
      | cons place ps =>
        obtain ⟨l₁, hok, h₁, hquiet, hlen⟩ := processRsp_spec h
        rw [bind_ok hok]
        refine (ih h₁ (by omega)).mono ?_ ?_
        · rintro _ l' ⟨ps', h', hquiet', hend⟩
          exact ⟨ps', h', hquiet.trans hquiet', hend⟩
        · rintro _ l' ⟨m, hm, hquiet', hend⟩
          exact ⟨m, hm, hquiet.trans hquiet', hend⟩

/-- Where a loop ends before it needs a response that is not outstanding. -/
theorem processWhile_ok (cond : Line Post Req → Bool) (h : c.InStep l ps [])
    (hcond : ∀ m, c.InStep m [] [] → Quiet l m → cond m = false) :
    ∃ l' ps', c.processWhile cond l = .ok () l' ∧ c.InStep l' ps' [] ∧ Quiet l l' ∧ cond l' = false := by
  have hends := processFor_spec cond h (Nat.lt_succ_self _)
  rw [processWhile]
  cases hrun : c.processFor cond (l.rspFifo.length + 1) l with
  | ok _ l' =>
    rw [hrun] at hends
    obtain ⟨ps', h', hquiet, hend⟩ := hends
    exact ⟨l', ps', rfl, h', hquiet, hend⟩
  | error _ l' =>
    rw [hrun] at hends
    obtain ⟨m, hm, hquiet, hend, _⟩ := hends
    rw [hcond m hm hquiet] at hend
    cases hend

theorem drainAll_spec (h : c.InStep l ps []) : ∃ l', c.drainAll l = .ok () l' ∧ c.InStep l' [] [] ∧ Quiet l l' := by
  obtain ⟨l', ps', hok, h', hquiet, hend⟩ := processWhile_ok (fun l => !l.rspFifo.isEmpty) h fun m hm _ => by
    rw [hm.fifo_nil]
    rfl
  have hnil : l'.rspFifo = [] := by
    rw [Bool.not_eq_false', List.isEmpty_iff] at hend
    exact hend
  have hwaits := h'.waits
  rw [hnil, forall₂_nil_left_iff] at hwaits
  subst hwaits
  exact ⟨l', hok, h', hquiet⟩

/-! ### Commands -/

/-- The placements in the queue and the manifest are not part of it. -/
theorem InStep.withPlan (h : c.InStep l ps qs) (batch : List BatchEntry) (fetched : Bool) (model : List UInt8)
    (manifest : List UInt64) :
    c.InStep { l with pendingBatch := batch, manifestFetched := fetched, announcedModel := model, manifest := manifest } ps qs :=
  { h with }

theorem sendBatch_spec (h : c.InStep l ps []) (batch : List BatchEntry) :
    Ends (fun _ l' => c.InStep l' [] [] ∧ l'.pendingBatch = l.pendingBatch) c.FailsInStep (c.sendBatch batch l) := by
  obtain ⟨l₁, hdrain, h₁, hquiet₁⟩ := drainAll_spec h
  obtain ⟨rsp, hrsp⟩ : ∃ rsp, rsp =
      (c.server.setTensorHashBatch (worldAfter c.exec c.start l₁.pipe.sent) batch).2 := ⟨_, rfl⟩
  obtain ⟨h₂, hanswer⟩ := h₁.outAnswered (.setTensorHashBatch batch) (by rw [serve, ← hrsp])
  have hlen : (putLE 8 rsp.nMiss.toNat ++ putLE 8 rsp.firstMissHash.toNat).length = 16 := by
    rw [length_append, Readers.putLE_length, Readers.putLE_length]
  obtain ⟨l₃, hrecv, h₃, hquiet₃⟩ := recvOutput_spec h₂ hanswer (by rw [hlen]; decide)
  rw [hlen] at hrecv
  have hmiss : getLE ((putLE 8 rsp.nMiss.toNat ++ putLE 8 rsp.firstMissHash.toNat).take 8) = rsp.nMiss.toNat := by
    rw [take_left' (Readers.putLE_length 8 _), Readers.getLE_putLE rsp.nMiss.toNat_lt]
  have hsend : sendData (.setTensorHashBatch batch) l₁ = .ok l₁.pipe.sent.length (l₁.out (.setTensorHashBatch batch)) := rfl
  rw [sendBatch, bind_ok hdrain, bind_ok hsend, bind_ok hrecv, hmiss]
  by_cases hzero : rsp.nMiss.toNat = 0
  · rw [if_neg (not_not.mpr hzero)]
    exact ⟨h₃, hquiet₃.pending.trans hquiet₁.pending⟩
  · rw [if_pos hzero]
    refine ⟨h₃, l₁.pipe.sent.length, batch, ?_, ?_⟩
    · rw [hquiet₃.sent]
      exact getElem?_concat_length
    · rw [hquiet₃.sent]
      have htake : (l₁.pipe.sent ++ [RpcCmd.setTensorHashBatch batch]).take l₁.pipe.sent.length = l₁.pipe.sent :=
        take_left
      show (c.server.setTensorHashBatch (worldAfter c.exec c.start
        ((l₁.pipe.sent ++ [RpcCmd.setTensorHashBatch batch]).take l₁.pipe.sent.length)) batch).2.nMiss ≠ 0
      rw [htake, ← hrsp]
      exact fun h0 => hzero (by rw [h0]; rfl)

theorem batchFlush_spec (h : c.InStep l ps []) :
    Ends (fun _ l' => ∃ ps', c.InStep l' ps' [] ∧ (ps = [] → ps' = []) ∧ l'.pendingBatch = []) c.FailsInStep (c.batchFlush l) := by
  rw [batchFlush]
  split
  · rename_i hempty
    exact ⟨ps, h, id, List.isEmpty_iff.mp hempty⟩
  · refine (sendBatch_spec (h.withPlan [] l.manifestFetched l.announcedModel l.manifest) l.pendingBatch).mono ?_ fun _ _ hbad => hbad
    rintro _ l' ⟨h', hpending⟩
    exact ⟨[], h', fun _ => rfl, hpending⟩

/-- A command goes out, after the placements that were queued. -/
theorem sendRpcCmdRaw_spec (h : c.InStep l ps []) (cmd : RpcCmd Post Req) :
    Ends (fun place l' => ∃ m ps', c.InStep m ps' [] ∧ (ps = [] → ps' = []) ∧ m.pendingBatch = [] ∧
      place = m.pipe.sent.length ∧ l' = m.out cmd) c.FailsInStep (c.sendRpcCmdRaw cmd l) := by
  refine (batchFlush_spec h).bind ?_
  rintro _ m ⟨ps', hm, hnil, hpending⟩
  exact ⟨m, ps', hm, hnil, hpending, rfl, rfl⟩

/-- A blocking command returns the response to it. -/
theorem sendRpcCmd_spec (h : c.InStep l ps []) (r : Req) :
    Ends (fun output l' => c.InStep l' [] [] ∧ ∃ before, l'.pipe.sent = before ++ [.call r] ∧
      c.answerAt l'.pipe.sent before.length = some output) c.FailsInStep (c.sendRpcCmd r l) := by
  obtain ⟨l₁, hdrain, h₁, _⟩ := drainAll_spec h
  rw [sendRpcCmd, bind_ok hdrain]
  refine (sendRpcCmdRaw_spec h₁ (.call r)).bind ?_
  rintro place l₂ ⟨m, ps', hm, hnil, _, rfl, rfl⟩
  obtain rfl := hnil rfl
  obtain ⟨hout, hanswer⟩ := hm.outAnswered (.call r) rfl
  have hlen := c.server.answer_length (worldAfter c.exec c.start m.pipe.sent) r
  obtain ⟨l₃, hrecv, h₃, hquiet⟩ := recvOutput_spec hout hanswer (by rw [hlen]; exact UInt64.toNat_lt _)
  rw [hlen] at hrecv
  rw [hrecv]
  refine ⟨h₃, m.pipe.sent, hquiet.sent, ?_⟩
  rw [hquiet.sent]
  exact hanswer

theorem post_spec (h : c.InStep l ps []) (p : Post) :
    Ends (fun _ l' => ∃ ps', c.InStep l' ps' []) c.FailsInStep (c.sendRpcCmdRaw (.post p) l) := by
  refine (sendRpcCmdRaw_spec h (.post p)).mono ?_ fun _ _ hbad => hbad
  rintro _ l' ⟨m, ps', hm, _, _, _, rfl⟩
  exact ⟨ps', hm.outSilent rfl id⟩

theorem FailsInStep.markFailed {e : Unit} (h : c.FailsInStep e l) : c.InStep l.markFailed [] [] where
  waits := h.1.waits
  unread := h.1.unread
  asked := h.1.asked
  placed := h.1.placed
  kept := h.1.kept
  pings := h.1.pings
  allPings := h.1.allPings
  failed := fun _ => h.2
  starved := h.1.starved
  received := h.1.received
  answered := h.1.answered
  cmds := h.1.cmds

theorem orFail_spec {α : Type} {x : LineM Post Req α} (h : Ends (fun _ l' => ∃ ps, c.InStep l' ps []) c.FailsInStep (x l)) :
    ∃ ps, c.InStep (orFail x l) ps [] := by
  rw [orFail]
  cases hx : x l with
  | ok a l' =>
    rw [hx] at h
    exact h
  | error e l' =>
    rw [hx] at h
    exact ⟨[], FailsInStep.markFailed (e := e) h⟩

theorem InStep.withPipe (h : c.InStep l ps qs) (hr : r.sent = l.pipe.sent)
    (hunread : r.unread c.exec c.start = l.pipe.unread c.exec c.start) :
    c.InStep (l.withPipe r) ps qs := by
  obtain ⟨sent, executed, stream, hle⟩ := r
  obtain rfl : sent = l.pipe.sent := hr
  exact
    { h with
      unread := hunread.trans h.unread }

/-! ### Markers -/

theorem count_ping_append (fifo : List PendingRsp) : (fifo ++ [PendingRsp.ping]).count .ping = fifo.count .ping + 1 := by
  rw [count_append, count_singleton_self]

/-- An entry whose response is not a payload adds none. -/
theorem outstanding_push (e : PendingRsp) (place : Nat) (owner : Backend)
    (hlen : fifo.length = ps.length) : c.outstanding sent owner (fifo ++ [e]) (ps ++ [place]) =
      c.outstanding sent owner fifo ps ++ if e.ownedBy owner then [c.payloadAt sent place] else [] := by
  rw [outstanding, outstanding, zip_append hlen, filter_append, map_append]
  congr 1
  cases howned : e.ownedBy owner with
  | true =>
    rw [if_pos rfl, zip_cons_cons, filter_cons_of_pos (by exact howned)]
    rfl
  | false =>
    rw [if_neg Bool.false_ne_true, zip_cons_cons, filter_cons_of_neg (by simpa using howned)]
    rfl

/-- A marker that has gone out is outstanding. -/
theorem InStep.pushPing (h : c.InStep l ps [place]) (hsent : l.pipe.sent[place]? = some .ping) :
    c.InStep { l with rspFifo := l.rspFifo ++ [.ping], pingsSent := l.pingsSent + 1 } (ps ++ [place]) [] :=
  { h with
    waits := rel_append h.waits (.cons hsent .nil)
    unread := by
      rw [append_nil]
      exact h.unread
    asked := fun i hi => nomatch hi
    kept := by
      intro owner
      refine (h.kept owner).trans ?_
      have hpush : c.outstanding l.pipe.sent owner (l.rspFifo ++ [.ping]) (ps ++ [place]) =
          c.outstanding l.pipe.sent owner l.rspFifo ps ++ [] := outstanding_push .ping place owner h.waits.length_eq
      rw [append_nil] at hpush
      show _ = _ ++ c.outstanding l.pipe.sent owner (l.rspFifo ++ [.ping]) (ps ++ [place])
      rw [hpush]
    pings := by
      have := h.pings
      show l.pingsDone + (l.rspFifo ++ [PendingRsp.ping]).count .ping ≤ l.pingsSent + 1
      rw [count_ping_append]
      omega
    allPings := by
      intro hmiss
      have := h.allPings hmiss
      show l.pingsDone + (l.rspFifo ++ [PendingRsp.ping]).count .ping = l.pingsSent + 1
      rw [count_ping_append]
      omega
    answered := by
      intro i cmd hi hb
      rcases h.answered i cmd hi hb with hq | hrec
      · obtain rfl := mem_singleton.mp hq
        have hi' : l.pipe.sent[i]? = some cmd := hi
        rw [hsent] at hi'
        cases hi'
        exact absurd hb id
      · exact .inr hrec }

theorem pingAsync_spec (h : c.InStep l ps []) : ∃ ps', c.InStep (c.pingAsync l) ps' [] := by
  have hraw := sendRpcCmdRaw_spec h .ping
  rw [pingAsync]
  cases hrun : c.sendRpcCmdRaw .ping l with
  | ok place l' =>
    rw [hrun] at hraw
    obtain ⟨m, ps', hm, _, _, rfl, rfl⟩ := hraw
    obtain ⟨hout, _⟩ := hm.outAnswered .ping rfl
    exact ⟨ps' ++ [m.pipe.sent.length], hout.pushPing getElem?_concat_length⟩
  | error e l' =>
    rw [hrun] at hraw
    have hfailed : c.InStep l'.markFailed [] [] := FailsInStep.markFailed (e := e) hraw
    exact ⟨[],
      { waits := hfailed.waits
        unread := hfailed.unread
        asked := hfailed.asked
        placed := hfailed.placed
        kept := hfailed.kept
        pings := hfailed.pings.trans (Nat.le_succ _)
        allPings := fun hmiss => absurd hraw.2 hmiss
        failed := hfailed.failed
        starved := hfailed.starved
        received := hfailed.received
        answered := hfailed.answered
        cmds := hfailed.cmds }⟩

/-- Markers that never went out are counted as done. -/
theorem InStep.giveUp (h : c.InStep l [] []) (hmissed : c.Missed l.pipe.sent) {target : Nat} (htarget : target ≤ l.pingsSent) :
    c.InStep { l.starve.markFailed with pingsDone := target, rspFifo := [] } [] [] :=
  { h with
    waits := .nil
    kept := by
      intro owner
      refine (h.kept owner).trans ?_
      rw [h.fifo_nil]
      rfl
    pings := htarget
    allPings := fun hmiss => absurd hmissed hmiss
    failed := fun _ => hmissed
    starved := fun _ => hmissed }

theorem syncPings_spec (h : c.InStep l ps []) (seq : Nat) : ∃ ps', c.InStep (c.syncPings seq l) ps' [] := by
  obtain ⟨target, htarget⟩ : ∃ target, target = if seq = 0 then l.pingsSent else min seq l.pingsSent := ⟨_, rfl⟩
  have hle : target ≤ l.pingsSent := by
    rw [htarget]
    split
    · exact le_rfl
    · exact Nat.min_le_right _ _
  have hends := processFor_spec (fun l => decide (l.pingsDone < target)) h (Nat.lt_succ_self _)
  rw [syncPings, ← htarget]
  rw [drainPings, processWhile]
  cases hrun : c.processFor (fun l => decide (l.pingsDone < target)) (l.rspFifo.length + 1) l with
  | ok _ l' =>
    rw [hrun] at hends
    obtain ⟨ps', h', _⟩ := hends
    exact ⟨ps', h'⟩
  | error _ l' =>
    rw [hrun] at hends
    obtain ⟨m, hm, hquiet, hend, rfl⟩ := hends
    have hshort : m.pingsDone < m.pingsSent := by
      rw [hquiet.pingsSent]
      exact (of_decide_eq_true hend).trans_le hle
    have hmissed : c.Missed m.pipe.sent := by
      by_contra hmiss
      have hall := hm.allPings hmiss
      rw [hm.fifo_nil, count_nil] at hall
      omega
    exact ⟨[], hm.giveUp hmissed (by rw [hquiet.pingsSent]; exact hle)⟩

/-! ### The manifest -/

theorem takeHashes_flatMap (hashes : List UInt64) :
    Packed.takeEach 8 hashes.length (fun bytes => UInt64.ofNat (getLE (bytes.take 8)))
      (hashes.flatMap fun x => putLE 8 x.toNat) = hashes := by
  have hget : ∀ (x : UInt64) (rest : List UInt8), UInt64.ofNat (getLE ((putLE 8 x.toNat ++ rest).take 8)) = id x := by
    intro x rest
    rw [take_left' (Readers.putLE_length 8 _), Readers.getLE_putLE x.toNat_lt]
    exact UInt64.ofNat_toNat
  have hall := @Packed.takeEach_flatMap UInt64 UInt64 8 (fun x => putLE 8 x.toNat)
    (fun bytes => UInt64.ofNat (getLE (bytes.take 8))) id (fun x => Readers.putLE_length 8 x.toNat) hget hashes []
  rwa [append_nil, List.map_id] at hall

theorem recvManifest_spec {hashes : List UInt64} (h : c.InStep l [] [place])
    (hanswer : c.answerAt l.pipe.sent place = some (putLE 8 hashes.length ++ hashes.flatMap fun x => putLE 8 x.toNat))
    (hlen : 8 + 8 * hashes.length < 256 ^ 8) :
    ∃ l', c.recvManifest place l = .ok hashes l' ∧ c.InStep l' [] [] := by
  have hdata : (hashes.flatMap fun x => putLE 8 x.toNat).length = hashes.length * 8 :=
    Packed.flatMap_length (fun x => Readers.putLE_length 8 _) hashes
  have htotal : (putLE 8 hashes.length ++ hashes.flatMap fun x => putLE 8 x.toNat).length = 8 + hashes.length * 8 := by
    rw [length_append, Readers.putLE_length, hdata]
  have hunread : l.pipe.unread c.exec c.start = frame (putLE 8 hashes.length ++ hashes.flatMap fun x => putLE 8 x.toNat) ++ [] := by
    rw [h.unread, onStream, nil_append, flatMap_singleton, hanswer, append_nil]
    rfl
  obtain ⟨q, hsize, hqsent, hqrest⟩ := recvSize_spec hunread (by rw [htotal]; omega)
  rw [htotal] at hsize
  rw [append_assoc] at hqrest
  obtain ⟨r, hr, hrsent, hrrest⟩ := Pipe.recv_data hqrest
  rw [Readers.putLE_length] at hr
  obtain ⟨t, ht, htsent, htrest⟩ := Pipe.recv_data hrrest
  rw [hdata] at ht
  have hcount : getLE (putLE 8 hashes.length) = hashes.length := Readers.getLE_putLE (by omega)
  have hrecv : c.recvData 8 (l.withPipe q) = .ok (putLE 8 hashes.length) (l.withPipe r) := by
    rw [recvData, show (l.withPipe q).pipe = q from rfl, hr]
    rfl
  have hrecv' : c.recvData (hashes.length * 8) (l.withPipe r) =
      .ok (hashes.flatMap fun x => putLE 8 x.toNat) (l.withPipe t) := by
    rw [recvData, show (l.withPipe r).pipe = r from rfl, ht]
    rfl
  have hlist : getLE (putLE 8 hashes.length) = (8 + hashes.length * 8 - 8) / 8 := by
    rw [hcount]
    omega
  refine ⟨(l.withPipe t).receive place (putLE 8 hashes.length ++ hashes.flatMap fun x => putLE 8 x.toNat), ?_,
    h.receive ((htsent.trans hrsent).trans hqsent) htrest hanswer⟩
  rw [recvManifest, bind_ok hsize, if_neg (by omega), bind_ok hrecv, if_neg (not_not.mpr hlist), hcount, bind_ok hrecv', takeHashes_flatMap]
  rfl

theorem announce_spec (h : c.InStep l [] []) (model : List UInt8) :
    Ends (fun _ l' => c.InStep l' [] []) c.FailsInStep (c.announce model l) := by
  rw [announce]
  split
  · refine (sendRpcCmdRaw_spec h (.sessionModel model)).bind ?_
    rintro _ l' ⟨m, ps', hm, hnil, _, _, rfl⟩
    obtain rfl := hnil rfl
    exact hm.outSilent rfl id
  · exact h

theorem fetchManifest_spec (h : c.InStep l ps []) (model : List UInt8) :
    Ends (fun _ l' => c.InStep l' [] []) c.FailsInStep (c.fetchManifest model l) := by
  obtain ⟨l₁, hdrain, h₁, _⟩ := drainAll_spec h
  rw [fetchManifest, bind_ok hdrain]
  refine (announce_spec h₁ model).bind fun _ l₂ h₂ => ?_
  refine (sendRpcCmdRaw_spec h₂ .getManifest).bind ?_
  rintro place l₃ ⟨m, ps', hm, hnil, _, rfl, rfl⟩
  obtain rfl := hnil rfl
  obtain ⟨hout, hanswer⟩ := hm.outAnswered .getManifest rfl
  obtain ⟨l₄, hrecv, h₄⟩ := recvManifest_spec hout hanswer (c.server.manifest_length _)
  rw [bind_ok hrecv]
  exact h₄.withPlan l₄.pendingBatch l₄.manifestFetched l₄.announcedModel (l₄.manifest ++ c.server.manifest _)

theorem manifestEnsure_spec (h : c.InStep l ps []) (model : List UInt8) :
    ∃ ps', c.InStep (c.manifestEnsure model l) ps' [] := by
  rw [manifestEnsure]
  split
  · exact ⟨ps, h⟩
  · dsimp only
    generalize (decide (16 ≤ c.serverMinor) && l.manifestFetched && decide (l.announcedModel ≠ model)) = rescope
    split
    · exact ⟨ps, h⟩
    · have hfetch := fetchManifest_spec
        (h.withPlan l.pendingBatch true model (if rescope then [] else l.manifest)) model
      generalize hrun : c.fetchManifest model { l with
        manifestFetched := true, announcedModel := model, manifest := if rescope then [] else l.manifest } = res
      have hends : Ends (fun _ l' => c.InStep l' [] []) c.FailsInStep res := by
        rw [← hrun]
        exact hfetch
      cases res with
      | ok _ l' => exact ⟨[], hends⟩
      | error _ l' => exact ⟨[], hends.1⟩

theorem queuePlacement_spec (h : c.InStep l ps qs) (e : BatchEntry) : c.InStep (queuePlacement e l) ps qs := by
  rw [queuePlacement]
  split
  · exact h.withPlan (l.pendingBatch ++ [e]) l.manifestFetched l.announcedModel l.manifest
  · exact h

/-! ### Pipelined reads -/

/-- Requests that are under way, with responses of the sizes that they ask for. -/
def Requested (sent : List (RpcCmd Post Req)) (es : List (Nat × Req)) : Prop :=
  ∀ e ∈ es, ∃ output, c.answerAt sent e.1 = some output ∧ output.length = (c.server.outputSize e.2).toNat

theorem sendGets_spec (rs : List Req) (h : c.InStep l [] qs) (hpending : l.pendingBatch = []) :
    c.InStep (c.sendGets rs l).2 [] (qs ++ (c.sendGets rs l).1.map Prod.fst) ∧
      (∀ i < l.pipe.sent.length, c.answerAt (c.sendGets rs l).2.pipe.sent i = c.answerAt l.pipe.sent i) ∧
      Requested (c := c) (c.sendGets rs l).2.pipe.sent (c.sendGets rs l).1 := by
  induction rs generalizing l qs with
  | nil =>
    refine ⟨?_, fun i _ => rfl, fun e he => nomatch he⟩
    show c.InStep l [] (qs ++ [])
    rwa [append_nil]
  | cons r rs ih =>
    have hraw : c.sendRpcCmdRaw (.call r) l = .ok l.pipe.sent.length (l.out (.call r)) := by
      have hflush : c.batchFlush l = .ok () l := by rw [batchFlush, hpending]; rfl
      rw [sendRpcCmdRaw, bind_ok hflush]
      rfl
    obtain ⟨hout, hanswer⟩ := h.outAnswered (.call r) rfl
    obtain ⟨h', hkept, hrequested⟩ := ih hout hpending
    have hrun : c.sendGets (r :: rs) l =
        ((l.pipe.sent.length, r) :: (c.sendGets rs (l.out (.call r))).1, (c.sendGets rs (l.out (.call r))).2) := by
      rw [sendGets, hraw]
    have hlast : l.pipe.sent.length < (l.out (.call r)).pipe.sent.length := by
      show _ < (l.pipe.sent ++ [RpcCmd.call r]).length
      rw [length_append, length_singleton]
      exact Nat.lt_succ_self _
    rw [hrun]
    refine ⟨?_, ?_, ?_⟩
    · rw [append_assoc] at h'
      exact h'
    · intro i hi
      rw [hkept i (hi.trans hlast)]
      exact answerAt_append hi _
    · intro e he
      rcases mem_cons.mp he with rfl | he
      · exact ⟨_, (hkept _ hlast).trans hanswer, c.server.answer_length _ _⟩
      · exact hrequested e he

theorem recvGets_spec (es : List (Nat × Req)) (h : c.InStep l [] (es.map Prod.fst))
    (hrequested : Requested (c := c) l.pipe.sent es) : c.InStep (c.recvGets es l) [] [] := by
  induction es generalizing l with
  | nil => exact h
  | cons e es ih =>
    obtain ⟨place, r⟩ := e
    obtain ⟨output, hanswer, hlen⟩ := hrequested (place, r) mem_cons_self
    obtain ⟨l', hrecv, h', hquiet⟩ := recvOutput_spec h hanswer (by rw [hlen]; exact UInt64.toNat_lt _)
    rw [hlen] at hrecv
    have hturn : c.recvGets ((place, r) :: es) l = c.recvGets es l' := by
      rw [recvGets, orFail, hrecv]
    rw [hturn]
    refine ih h' fun e he => ?_
    rw [hquiet.sent]
    exact hrequested e (mem_cons_of_mem _ he)

theorem getTensorBatch_spec (rs : List Req) (h : c.InStep l ps []) : c.InStep (c.getTensorBatch rs l) [] [] := by
  obtain ⟨l₁, hdrain, h₁, _⟩ := drainAll_spec h
  have hrun : c.getTensorBatch rs l = c.recvGets (c.sendGets rs l₁).1 (c.sendGets rs l₁).2 := by
    rw [getTensorBatch, hdrain]
  rw [hrun]
  cases rs with
  | nil => exact h₁
  | cons r rs =>
    have hflush := batchFlush_spec h₁
    cases hm : c.batchFlush l₁ with
    | ok _ m =>
      rw [hm] at hflush
      obtain ⟨ps', hstep, hnil, hpending⟩ := hflush
      obtain rfl := hnil rfl
      have hagain : c.batchFlush m = .ok () m := by rw [batchFlush, hpending]; rfl
      have hsame : c.sendGets (r :: rs) l₁ = c.sendGets (r :: rs) m := by
        rw [sendGets, sendGets, sendRpcCmdRaw, bind_ok hm, bind_ok hagain]
      obtain ⟨h', _, hrequested⟩ := sendGets_spec (r :: rs) hstep hpending
      rw [hsame]
      exact recvGets_spec _ h' hrequested
    | error e m =>
      rw [hm] at hflush
      have hfail : c.sendGets (r :: rs) l₁ = ([], m.markFailed) := by
        rw [sendGets, sendRpcCmdRaw, bind_error hm]
      rw [hfail]
      exact FailsInStep.markFailed (e := e) hflush

/-! ### Fused commands -/

theorem segmentOf_floats {f : FetchRequest} (hf : f.Floats) : (c.segmentOf f).Floats := by
  obtain ⟨htype, hpos, hwhole⟩ := hf
  refine ⟨hpos, hwhole, fun hfmt => ?_⟩
  change c.fetchFmt f = .q8 at hfmt
  rw [fetchFmt] at hfmt
  split at hfmt
  · split at hfmt
    · rename_i hq8
      exact Nat.dvd_of_mod_eq_zero hq8.2.2
    · split at hfmt <;> cases hfmt
  · cases hfmt

/-- A FETCH that has gone out is outstanding. -/
theorem InStep.pushFetch {parts : List Post} {f : FetchRequest} (h : c.InStep l ps [place])
    (owner : Backend) (hsent : l.pipe.sent[place]? = some (.graphFused parts (some (c.segmentOf f))))
    (hf : f.Floats) : c.InStep (c.pushFetch owner place (some f) l) (ps ++ [place]) [] where
  waits := by
    have he : Awaits l.pipe.sent (.fetch (c.fetchFmt f) (c.segmentOf f).zeroOk f.size owner) place :=
      ⟨parts, c.segmentOf f, hsent, rfl, rfl, rfl, segmentOf_floats hf⟩
    exact rel_append h.waits (.cons he .nil)
  unread := by
    rw [append_nil]
    exact h.unread
  asked := fun i hi => nomatch hi
  placed := by
    intro e he
    rcases List.mem_append.mp he with hold | hnew
    · exact h.placed e hold
    · obtain rfl := mem_singleton.mp hnew
      exact h.asked place (mem_singleton.mpr rfl)
  kept := by
    intro o
    have hpush := @outstanding_push _ _ _ c l.pipe.sent ps l.rspFifo
      (.fetch (c.fetchFmt f) (c.segmentOf f).zeroOk f.size owner) place o h.waits.length_eq
    show (own o (l.fetches ++ [(owner, place)])).map (c.payloadAt l.pipe.sent) = own o l.delivered ++ own o l.fetchStash ++
      c.outstanding l.pipe.sent o (l.rspFifo ++ [.fetch (c.fetchFmt f) (c.segmentOf f).zeroOk f.size owner]) (ps ++ [place])
    rw [hpush, own_append, map_append, h.kept o, append_assoc, append_assoc, append_assoc]
    congr 3
    by_cases ho : owner = o
    · rw [if_pos ho, if_pos (by exact decide_eq_true ho)]
      rfl
    · rw [if_neg ho, if_neg (by simpa [PendingRsp.ownedBy] using ho)]
      rfl
  pings := by
    have := h.pings
    show l.pingsDone + (l.rspFifo ++ [PendingRsp.fetch _ _ _ _]).count .ping ≤ l.pingsSent
    rw [count_append, count_singleton, if_neg (by simp)]
    exact this
  allPings := by
    intro hmiss
    have := h.allPings hmiss
    show l.pingsDone + (l.rspFifo ++ [PendingRsp.fetch _ _ _ _]).count .ping = l.pingsSent
    rw [count_append, count_singleton, if_neg (by simp)]
    exact this
  failed := h.failed
  starved := h.starved
  received := h.received
  answered := by
    intro i cmd hi hb
    rcases h.answered i cmd hi hb with hq | hrec
    · obtain rfl := mem_singleton.mp hq
      have hi' : l.pipe.sent[i]? = some cmd := hi
      rw [hsent] at hi'
      cases hi'
      exact absurd hb id
    · exact .inr hrec
  cmds := h.cmds

theorem fusedSend_spec (h : c.InStep l ps []) (owner : Backend) (parts : List Post) (fetch : Option FetchRequest)
    (hfetch : ∀ f ∈ fetch, f.Floats) : ∃ ps', c.InStep (c.fusedSend owner parts fetch l) ps' [] := by
  rw [fusedSend]
  split
  · exact ⟨ps, h⟩
  split
  · exact ⟨ps, h⟩
  refine orFail_spec ?_
  obtain ⟨l₁, ps₁, hlead, h₁, _⟩ := processWhile_ok (fun l => decide (l.rspFifo.head? = some .ping)) h fun m hm _ => by
    rw [hm.fifo_nil]
    rfl
  rw [bind_ok hlead]
  refine (sendRpcCmdRaw_spec h₁ (.graphFused parts (fetch.map c.segmentOf))).bind ?_
  rintro place l₂ ⟨m, ps₂, hm, _, _, rfl, rfl⟩
  cases fetch with
  | none => exact ⟨ps₂, hm.outSilent rfl id⟩
  | some f =>
    have hf := hfetch f rfl
    obtain ⟨hout, _⟩ := hm.outAnswered (.graphFused parts (some (c.segmentOf f))) (serve_fetch _ parts (segmentOf_floats hf))
    exact ⟨ps₂ ++ [m.pipe.sent.length], hout.pushFetch owner getElem?_concat_length hf⟩

theorem fusedReady_spec (owner : Backend) (ready : List Bool) (h : c.InStep l ps []) :
    ∃ ps', c.InStep (c.fusedReady owner ready l) ps' [] := by
  induction ready generalizing l ps with
  | nil => exact ⟨ps, h⟩
  | cons b ready ih =>
    rw [fusedReady]
    split
    · exact ⟨ps, h⟩
    · rename_i hgo
      cases ps with
      | nil =>
        rw [h.fifo_nil] at hgo
        exact absurd (.inr (.inl rfl)) hgo
      | cons place ps =>
        obtain ⟨l₁, hok, h₁, _⟩ := processRsp_spec h
        rw [hok]
        exact ih h₁

theorem findOwn_eq (l : Line Post Req) (owner : Backend) : l.findOwn owner = (own owner l.fetchStash).head? := by
  rw [Line.findOwn, own, head?_map, head?_filter]

/-- The payload that an owner takes is the first one of its own. -/
theorem own_eraseP (owner o : Backend) (es : List (Backend × List UInt8)) :
    own o (es.eraseP fun e => e.1 = owner) = if o = owner then (own o es).tail else own o es := by
  induction es with
  | nil => split <;> rfl
  | cons e es ih =>
    by_cases he : e.1 = owner
    · rw [eraseP_cons_of_pos (by exact decide_eq_true he)]
      by_cases ho : o = owner
      · rw [if_pos ho, own, own, filter_cons_of_pos (by exact decide_eq_true (he.trans ho.symm))]
        rfl
      · rw [if_neg ho, own, own, filter_cons_of_neg (by simpa using fun heo => ho (heo.symm.trans he))]
    · rw [eraseP_cons_of_neg (by simpa using he)]
      by_cases heo : e.1 = o
      · have ho : o ≠ owner := fun hoo => he (heo.trans hoo)
        rw [if_neg ho] at ih ⊢
        rw [own, own, filter_cons_of_pos (by exact decide_eq_true heo), filter_cons_of_pos (by exact decide_eq_true heo),
          map_cons, map_cons]
        exact congrArg _ ih
      · have hskip : ∀ es' : List (Backend × List UInt8), own o (e :: es') = own o es' := fun es' => by
          rw [own, own, filter_cons_of_neg (by simpa using heo)]
        rw [hskip, hskip]
        exact ih

theorem payloadAt_length {size : Nat} (hsize : fetchSizeAt sent place = some size) :
    (c.payloadAt sent place).length = size := by
  rw [fetchSizeAt] at hsize
  split at hsize
  · rename_i parts f hi
    obtain rfl := some.inj hsize
    rw [payloadAt, hi]
    exact payload_length f (c.server.tensorGet_length _ _ _ _)
  · cases hsize

/-- The first payload of an owner is taken out of the stash. -/
theorem InStep.deliver {owner : Backend} {payload : List UInt8} {rest : List (List UInt8)} (h : c.InStep l ps [])
    (hstash : own owner l.fetchStash = payload :: rest) :
    c.InStep { l.eraseOwn owner with delivered := l.delivered ++ [(owner, payload)] } ps [] :=
  { h with
    kept := by
      intro o
      refine (h.kept o).trans ?_
      show _ = own o (l.delivered ++ [(owner, payload)]) ++ own o (l.fetchStash.eraseP fun e => e.1 = owner) ++ _
      rw [own_append, own_eraseP]
      by_cases ho : o = owner
      · subst ho
        rw [if_pos rfl, if_pos rfl, hstash, tail_cons, append_assoc (own o l.delivered) [payload] rest]
        rfl
      · rw [if_neg (Ne.symm ho), if_neg ho, append_nil]
        rfl }

/-- An owner receives the payload of its next FETCH. -/
theorem fusedRecv_spec {owner : Backend} {size : Nat} (h : c.InStep l ps [])
    (hnext : (own owner l.fetches)[(own owner l.delivered).length]? = some place)
    (hsize : fetchSizeAt l.pipe.sent place = some size) :
    ∃ l' ps', c.fusedRecv owner size l = ((c.payloadAt l.pipe.sent place, true), l') ∧ c.InStep l' ps' [] := by
  have hown : ∀ m, Quiet l m → ((own owner m.fetches).map (c.payloadAt m.pipe.sent))[(own owner m.delivered).length]? =
      some (c.payloadAt l.pipe.sent place) := by
    intro m hquiet
    rw [hquiet.fetches, hquiet.delivered, hquiet.sent, getElem?_map, hnext]
    rfl
  obtain ⟨m, ps', hloop, hm, hquiet, hend⟩ := processWhile_ok (fun l => (l.findOwn owner).isNone) h fun m hm hquiet => by
    have hkept := hown m hquiet
    rw [hm.kept owner, hm.fifo_nil] at hkept
    rw [findOwn_eq]
    cases hstash : own owner m.fetchStash with
    | nil =>
      rw [hstash, append_nil] at hkept
      have hnone : (own owner m.delivered ++ c.outstanding m.pipe.sent owner [] [])[(own owner m.delivered).length]? = none := by
        rw [getElem?_append_right le_rfl, Nat.sub_self]
        rfl
      rw [hnone] at hkept
      cases hkept
    | cons payload rest => rfl
  rw [findOwn_eq] at hend
  cases hstash : own owner m.fetchStash with
  | nil =>
    rw [hstash] at hend
    cases hend
  | cons payload rest =>
    have hkept := hown m hquiet
    rw [hm.kept owner, hstash, append_assoc, getElem?_append_right le_rfl, Nat.sub_self] at hkept
    have hpayload : payload = c.payloadAt l.pipe.sent place := some.inj hkept
    have hlen : payload.length = size := by
      rw [hpayload]
      exact payloadAt_length hsize
    refine ⟨{ m.eraseOwn owner with delivered := m.delivered ++ [(owner, payload)] }, ps', ?_, hm.deliver hstash⟩
    rw [fusedRecv, hloop]
    dsimp only
    rw [findOwn_eq, hstash, head?_cons]
    dsimp only
    rw [if_neg (not_not.mpr hlen), hpayload]

/-! ### Runs -/

/-- A FETCH is of a tensor of floats, and an owner receives what it has asked for. -/
def Permitted (l : Line Post Req) : LineAction Post Req → Prop
  | .fusedSend _ _ (some f) => f.Floats
  | .fusedRecv owner size =>
    (own owner l.fetches)[(own owner l.delivered).length]?.bind (fetchSizeAt l.pipe.sent) = some size
  | _ => True

theorem step_inStep {a : LineAction Post Req} (h : c.InStep l ps []) (ha : Permitted l a) :
    ∃ ps', c.InStep (c.step l a) ps' [] := by
  cases a with
  | serve => exact ⟨ps, h.withPipe (Pipe.serve_sent l.pipe) (Pipe.unread_serve l.pipe)⟩
  | call r => exact orFail_spec ((sendRpcCmd_spec h r).mono (fun _ l' hl => ⟨[], hl.1⟩) fun _ _ hbad => hbad)
  | post p => exact orFail_spec (post_spec h p)
  | ping => exact pingAsync_spec h
  | sync seq => exact syncPings_spec h seq
  | manifest model => exact manifestEnsure_spec h model
  | queue e => exact ⟨ps, queuePlacement_spec h e⟩
  | flush =>
    exact orFail_spec ((batchFlush_spec h).mono (fun _ l' ⟨ps', h', _⟩ => ⟨ps', h'⟩) fun _ _ hbad => hbad)
  | getBatch rs => exact ⟨[], getTensorBatch_spec rs h⟩
  | fusedSend owner parts fetch =>
    refine fusedSend_spec h owner parts fetch fun f hf => ?_
    obtain rfl := hf
    exact ha
  | fusedReady owner ready => exact fusedReady_spec owner ready h
  | fusedRecv owner size =>
    obtain ⟨place, hnext, hsize⟩ := bind_eq_some_iff.mp ha
    obtain ⟨l', ps', hrecv, h'⟩ := fusedRecv_spec h hnext hsize
    refine ⟨ps', ?_⟩
    show c.InStep (c.fusedRecv owner size l).2 ps' []
    rw [hrecv]
    exact h'

instance (l : Line Post Req) (a : LineAction Post Req) : Decidable (Permitted l a) :=
  match a with
  | .fusedSend _ _ (some f) => inferInstanceAs (Decidable f.Floats)
  | .fusedRecv owner size => inferInstanceAs
      (Decidable ((own owner l.fetches)[(own owner l.delivered).length]?.bind (fetchSizeAt l.pipe.sent) = some size))
  | .fusedSend _ _ none | .serve | .call _ | .post _ | .ping | .sync _ | .manifest _ | .queue _ | .flush | .getBatch _
  | .fusedReady _ _ => .isTrue trivial

theorem inStep_start : c.InStep {} [] [] where
  waits := .nil
  unread := rfl
  asked := fun i hi => nomatch hi
  placed := fun e he => nomatch he
  kept := fun owner => rfl
  pings := le_rfl
  allPings := fun _ => rfl
  failed := nofun
  starved := nofun
  received := fun e he => nomatch he
  answered := fun i cmd hi => by
    rw [show (({} : Line Post Req).pipe.sent[i]?) = none from getElem?_nil] at hi
    cases hi
  cmds := rfl

variable (c) in
/-- In every run that starts with an idle socket: a blocking command that was sent has received the response to it, the
payloads that an owner has received are those of its FETCHes in their order, the next one is there for it, and the FIFO is
what can still be read.  A blocking command is not sent if a placement that was queued before it misses, which is the only
way for the endpoint to fail. -/
theorem responses_in_order {acts : List (LineAction Post Req)} (hacts : Runs.EachStep c.step Permitted {} acts) :
    let l : Line Post Req := Runs.exec c.step {} acts
    (∀ place output, (place, output) ∈ l.received → c.answerAt l.pipe.sent place = some output) ∧
      (∀ place cmd, l.pipe.sent[place]? = some cmd → cmd.Blocking → ∃ output, (place, output) ∈ l.received) ∧
      (∀ r, (∃ output l' before, c.sendRpcCmd r l = .ok output l' ∧ l'.pipe.sent = before ++ [.call r] ∧
        c.answerAt l'.pipe.sent before.length = some output) ∨ c.Missed (c.step l (.call r)).pipe.sent) ∧
      (∀ (owner : Backend) (k : Nat) output, (own owner l.delivered)[k]? = some output →
        ∃ place, (own owner l.fetches)[k]? = some place ∧ output = c.payloadAt l.pipe.sent place) ∧
      (∀ (owner : Backend) place size, (own owner l.fetches)[(own owner l.delivered).length]? = some place →
        fetchSizeAt l.pipe.sent place = some size → (c.fusedRecv owner size l).1 = (c.payloadAt l.pipe.sent place, true)) ∧
      (∃ places, List.Forall₂ (Awaits l.pipe.sent) l.rspFifo places ∧
        l.pipe.unread c.exec c.start = c.onStream l.pipe.sent places) ∧
      l.pingsDone ≤ l.pingsSent ∧ (¬ c.Missed l.pipe.sent → l.failed = false ∧ l.starved = false) := by
  intro l
  obtain ⟨ps, h⟩ : ∃ ps, c.InStep l ps [] :=
    Runs.exec_of_step (fun s a (hs : ∃ ps, c.InStep s ps []) ha => hs.elim fun _ hps => step_inStep hps ha)
      ⟨[], inStep_start⟩ hacts
  refine ⟨fun place output hrec => h.received _ hrec, ?_, ?_, ?_, ?_, ⟨ps, h.waits, ?_⟩, ?_, ?_⟩
  · intro place cmd hcmd hblock
    exact (h.answered place cmd hcmd hblock).resolve_left not_mem_nil
  · intro r
    have hcall := sendRpcCmd_spec h r
    cases hrun : c.sendRpcCmd r l with
    | ok output l' =>
      rw [hrun] at hcall
      obtain ⟨_, before, hsent, hanswer⟩ := hcall
      exact .inl ⟨output, l', before, rfl, hsent, hanswer⟩
    | error e l' =>
      rw [hrun] at hcall
      refine .inr ?_
      show c.Missed (orFail (c.sendRpcCmd r) l).pipe.sent
      rw [orFail, hrun]
      exact hcall.2
  · intro owner k output hout
    have hkept := h.kept owner
    have hk : ((own owner l.fetches).map (c.payloadAt l.pipe.sent))[k]? = some output := by
      have hlt := (List.getElem?_eq_some_iff.mp hout).1
      rw [hkept, append_assoc, getElem?_append_left hlt]
      exact hout
    rw [getElem?_map] at hk
    obtain ⟨place, hplace, rfl⟩ := map_eq_some_iff.mp hk
    exact ⟨place, hplace, rfl⟩
  · intro owner place size hnext hsize
    obtain ⟨l', ps', hrecv, _⟩ := fusedRecv_spec h hnext hsize
    rw [hrecv]
  · have hunread := h.unread
    rwa [append_nil] at hunread
  · exact (Nat.le_add_right _ _).trans h.pings
  · intro hmiss
    exact ⟨Bool.eq_false_iff.mpr fun hf => hmiss (h.failed hf), Bool.eq_false_iff.mpr fun hf => hmiss (h.starved hf)⟩

/-- A worker whose state is the bytes of a tensor, which a command without a response replaces. -/
def byteServer : RpcServer (List UInt8) (List UInt8) Unit where
  post _ p := p
  outputSize _ := 1
  answer w _ := (w, [w.headD 0])
  answer_length _ _ := rfl
  setTensorHashBatch w _ := (w, ⟨0, 0⟩)
  sessionModel w _ := w
  manifest _ := []
  manifest_length _ := by decide
  tensorGet w _ offset n := resized n (w.drop offset.toNat)
  tensorGet_length _ _ _ n := resized_length n _

/-- A connection to it, without compression and with zero markers. -/
def byteConnection : Connection (List UInt8) (List UInt8) Unit where
  server := byteServer
  codec := ⟨fun _ bytes => bytes, fun _ bytes => bytes⟩
  start := []
  serverMinor := 16
  wireF16 := false
  wireQ8 := false

/-- Two backends fetch, a marker and a blocking command go out, and the second backend receives first. -/
def crossedRun : List (LineAction (List UInt8) Unit) :=
  let request := fun offset => (⟨serializeTensor (fun _ => none) 1 {}, offset, 4⟩ : FetchRequest)
  [.post [1, 2, 3, 4, 0, 0, 0, 0], .fusedSend 1 [] (some (request 0)), .serve, .fusedSend 2 [] (some (request 4)), .ping,
    .call (), .fusedRecv 2 4, .fusedRecv 1 4, .sync 0]

theorem responses_in_order_crossed :
    ∃ place, (own 1 (Runs.exec byteConnection.step {} crossedRun).fetches)[0]? = some place ∧
      [1, 2, 3, 4] = byteConnection.payloadAt (Runs.exec byteConnection.step {} crossedRun).pipe.sent place :=
  (responses_in_order byteConnection (by decide +kernel)).2.2.2.1 1 0 [1, 2, 3, 4] (by decide +kernel)

end Connection

end LlamaCpp.Rpc
