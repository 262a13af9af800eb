import LlamaCpp.Lib.Readers

/-!
# Pipelined requests

A `Pipe` is a connection to a server that executes the commands it is sent in order and writes their answers, as bytes, in the
same order.  The server may be behind: `executed` commands are done, and `stream` is what they have answered and nobody has
read.  `unread` is everything that can still be read once the server has caught up.

A read waits for the server.  It takes the first bytes of `unread` however far the server is behind (`recv_spec`), so that
what is read depends only on what was sent.
-/

namespace Readers

universe u

/-- A message: the size of its data in eight bytes, and the data. -/
def frame (data : List UInt8) : List UInt8 := putLE 8 data.length ++ data

theorem getLE_take_frame {data : List UInt8} (h : data.length < 256 ^ 8) (rest : List UInt8) :
    getLE ((frame data ++ rest).take 8) = data.length := by
  have htake : (frame data ++ rest).take 8 = putLE 8 data.length := by
    rw [frame, List.append_assoc]
    exact List.take_left' (putLE_length 8 _)
  rw [htake, getLE_putLE h]

theorem drop_frame (data rest : List UInt8) : (frame data ++ rest).drop 8 = data ++ rest := by
  rw [frame, List.append_assoc]
  exact List.drop_left' (putLE_length 8 _)

theorem le_length_frame (data rest : List UInt8) : 8 ≤ (frame data ++ rest).length := by
  rw [frame, List.length_append, List.length_append, putLE_length]
  omega

end Readers

universe u

/-- The state of a connection.  The state of the server is what the executed commands make of its first one. -/
structure Pipe (Cmd : Type u) where
  sent : List Cmd := []
  executed : Nat := 0
  stream : List UInt8 := []
  executed_le : executed ≤ sent.length := by simp

namespace Pipe

variable {World Cmd : Type u} (exec : World → Cmd → World × List UInt8) (start : World)

/-- The state of the server after commands. -/
def worldAfter (w : World) (cs : List Cmd) : World := cs.foldl (fun w c => (exec w c).1) w

def answers : World → List Cmd → List UInt8
  | _, [] => []
  | w, c :: cs => (exec w c).2 ++ answers (exec w c).1 cs

theorem worldAfter_append (w : World) (cs ds : List Cmd) :
    worldAfter exec w (cs ++ ds) = worldAfter exec (worldAfter exec w cs) ds := List.foldl_append

@[simp] theorem worldAfter_singleton (w : World) (c : Cmd) : worldAfter exec w [c] = (exec w c).1 := rfl

theorem answers_append (w : World) (cs ds : List Cmd) :
    answers exec w (cs ++ ds) = answers exec w cs ++ answers exec (worldAfter exec w cs) ds := by
  induction cs generalizing w with
  | nil => rfl
  | cons c cs ih =>
    rw [List.cons_append, answers, answers, ih, List.append_assoc]
    rfl

theorem answers_singleton (w : World) (c : Cmd) : answers exec w [c] = (exec w c).2 := List.append_nil _

def world (p : Pipe Cmd) : World := worldAfter exec start (p.sent.take p.executed)

/-- Everything that can still be read. -/
def unread (p : Pipe Cmd) : List UInt8 :=
  p.stream ++ answers exec (p.world exec start) (p.sent.drop p.executed)

/-- A command goes out. -/
def send (p : Pipe Cmd) (c : Cmd) : Pipe Cmd where
  sent := p.sent ++ [c]
  executed := p.executed
  stream := p.stream
  executed_le := by
    have := p.executed_le
    rw [List.length_append]
    omega

/-- The server executes the next command, if there is one. -/
def serve (p : Pipe Cmd) : Pipe Cmd :=
  if h : p.executed < p.sent.length then
    { sent := p.sent
      executed := p.executed + 1
      stream := p.stream ++ (exec (p.world exec start) p.sent[p.executed]).2
      executed_le := h }
  else p

/-- The server executes commands until there are `n` bytes to read, at most as many commands as the fuel. -/
def serveUntil (n : Nat) : Nat → Pipe Cmd → Pipe Cmd
  | 0, p => p
  | fuel + 1, p => if n ≤ p.stream.length then p else serveUntil n fuel (p.serve exec start)

/-- The first bytes of the stream are read. -/
def dropStream (p : Pipe Cmd) (n : Nat) : Pipe Cmd := { p with stream := p.stream.drop n }

/-- `n` bytes are read, unless there will never be as many. -/
def recv (n : Nat) (p : Pipe Cmd) : Option (List UInt8 × Pipe Cmd) :=
  let q := serveUntil exec start n (p.sent.length - p.executed) p
  if n ≤ q.stream.length then some (q.stream.take n, q.dropStream n) else none

variable {exec start} {p : Pipe Cmd}

theorem unread_send (p : Pipe Cmd) (c : Cmd) :
    (p.send c).unread exec start = p.unread exec start ++ (exec (worldAfter exec start p.sent) c).2 := by
  have htake : (p.sent ++ [c]).take p.executed = p.sent.take p.executed := List.take_append_of_le_length p.executed_le
  have hdrop : (p.sent ++ [c]).drop p.executed = p.sent.drop p.executed ++ [c] := List.drop_append_of_le_length p.executed_le
  have hworld : worldAfter exec (p.world exec start) (p.sent.drop p.executed) = worldAfter exec start p.sent := by
    rw [world, ← worldAfter_append, List.take_append_drop]
  rw [unread, unread, send, world]
  rw [htake, hdrop, answers_append, answers_singleton, ← List.append_assoc, ← world, hworld]

@[simp] theorem serve_sent (p : Pipe Cmd) : (p.serve exec start).sent = p.sent := by
  unfold serve
  split <;> rfl

@[simp] theorem unread_serve (p : Pipe Cmd) : (p.serve exec start).unread exec start = p.unread exec start := by
  unfold serve
  split
  · rename_i h
    have hdrop : p.sent.drop p.executed = p.sent[p.executed] :: p.sent.drop (p.executed + 1) := List.drop_eq_getElem_cons h
    have htake : p.sent.take (p.executed + 1) = p.sent.take p.executed ++ [p.sent[p.executed]] :=
      (List.take_append_getElem h).symm
    have hworld : worldAfter exec start (p.sent.take (p.executed + 1)) = (exec (p.world exec start) p.sent[p.executed]).1 := by
      rw [htake, worldAfter_append, worldAfter_singleton, world]
    rw [unread, unread, hdrop, answers, ← hworld, List.append_assoc]
    rfl
  · rfl

theorem serve_executed (h : p.executed < p.sent.length) : (p.serve exec start).executed = p.executed + 1 := by
  rw [serve, dif_pos h]

/-- The server goes on until there are enough bytes or no commands. -/
theorem serveUntil_spec (n fuel : Nat) (p : Pipe Cmd) (hfuel : p.sent.length - p.executed ≤ fuel) :
    (serveUntil exec start n fuel p).sent = p.sent ∧
      (serveUntil exec start n fuel p).unread exec start = p.unread exec start ∧
      (n ≤ (serveUntil exec start n fuel p).stream.length ∨ (serveUntil exec start n fuel p).executed = p.sent.length) := by
  induction fuel generalizing p with
  | zero =>
    have := p.executed_le
    exact ⟨rfl, rfl, .inr (show p.executed = p.sent.length by omega)⟩
  | succ fuel ih =>
    by_cases hn : n ≤ p.stream.length
    · rw [serveUntil, if_pos hn]
      exact ⟨rfl, rfl, .inl hn⟩
    · have hmore : (p.serve exec start).sent.length - (p.serve exec start).executed ≤ fuel := by
        rw [serve_sent]
        by_cases h : p.executed < p.sent.length
        · rw [serve_executed h]
          omega
        · rw [serve, dif_neg h]
          omega
      obtain ⟨hsent, hunread, hend⟩ := ih (p.serve exec start) hmore
      rw [serve_sent] at hsent hend
      rw [serveUntil, if_neg hn]
      exact ⟨hsent, hunread.trans (unread_serve p), hend⟩

/-- A read takes the first bytes of those that can still be read. -/
theorem recv_spec {n : Nat} (h : n ≤ (p.unread exec start).length) :
    ∃ q, recv exec start n p = some ((p.unread exec start).take n, q) ∧ q.sent = p.sent ∧
      q.unread exec start = (p.unread exec start).drop n := by
  obtain ⟨hsent, hunread, hend⟩ := @serveUntil_spec _ _ exec start n _ p le_rfl
  generalize hq : serveUntil exec start n (p.sent.length - p.executed) p = q at hsent hunread hend
  have hn : n ≤ q.stream.length := by
    rcases hend with hn | hall
    · exact hn
    · rw [← hunread, unread, hall, ← hsent, List.drop_length, answers, List.append_nil] at h
      exact h
  refine ⟨q.dropStream n, ?_, hsent, ?_⟩
  · rw [recv, hq, if_pos hn, ← hunread, unread, List.take_append_of_le_length hn]
  · rw [← hunread, unread, unread, dropStream, world]
    dsimp only
    rw [List.drop_append_of_le_length hn, ← world]

/-- Data that are next are read. -/
theorem recv_data {data rest : List UInt8} (hp : p.unread exec start = data ++ rest) :
    ∃ q, recv exec start data.length p = some (data, q) ∧ q.sent = p.sent ∧ q.unread exec start = rest := by
  have hle : data.length ≤ (p.unread exec start).length := by
    rw [hp, List.length_append]
    omega
  obtain ⟨q, hq, hsent, hunread⟩ := recv_spec hle
  rw [hp, List.take_left] at hq
  rw [hp, List.drop_left] at hunread
  exact ⟨q, hq, hsent, hunread⟩

/-- The size of a message that is next is read. -/
theorem recv_size {data rest : List UInt8} (hp : p.unread exec start = Readers.frame data ++ rest)
    (hdata : data.length < 256 ^ 8) :
    ∃ bytes q, recv exec start 8 p = some (bytes, q) ∧ Readers.getLE bytes = data.length ∧ q.sent = p.sent ∧
      q.unread exec start = data ++ rest := by
  have hle : 8 ≤ (p.unread exec start).length := by
    rw [hp]
    exact Readers.le_length_frame data rest
  obtain ⟨q, hq, hsent, hunread⟩ := recv_spec hle
  rw [hp, Readers.drop_frame] at hunread
  refine ⟨_, q, hq, ?_, hsent, hunread⟩
  rw [hp, Readers.getLE_take_frame hdata]

end Pipe
