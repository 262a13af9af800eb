import LlamaCpp.Lib.Runs
import Mathlib.Algebra.Order.Group.Nat

/-!
# Stream sessions

`stream_session` of server-stream.cpp: a buffer with the last bytes of a response, one producer and any number
of readers.  What a thread does while it holds the mutex is one step.  A reader copies a chunk under the mutex
and gives it to its sink without, so that is a step of its own.  A reader of `stream_pipe_consumer` calls
`read_from` again where it stopped (`resume`).

`appended` and `received` remember all bytes that entered the session and all that a sink has got.  Whatever
the interleaving, the buffer is the end of the one and a part of the other (`replay_faithful`).
-/

namespace LlamaCpp.Server

open List Option

structure StreamSession where
  buffer : List UInt8 := []
  prefixDropped : Nat := 0
  capBytes : Nat
  done : Bool := false
  /-- The bytes that ever entered the session. -/
  appended : List UInt8 := []

namespace StreamSession

variable (s : StreamSession)

def append (data : List UInt8) : Bool × StreamSession :=
  if data = [] then (true, s)
  else if s.done then (false, s)
  else if s.capBytes ≤ data.length then
    -- the chunk is bigger than the cap: only the tail that fits is kept
    let skip := data.length - s.capBytes
    (true, { s with
      prefixDropped := s.prefixDropped + (s.buffer.length + skip)
      buffer := data.drop skip
      appended := s.appended ++ data })
  else
    let needed := s.buffer.length + data.length
    let toDrop := if s.capBytes < needed then needed - s.capBytes else 0
    (true, { s with
      prefixDropped := s.prefixDropped + toDrop
      buffer := s.buffer.drop toDrop ++ data
      appended := s.appended ++ data })

def finalize : StreamSession := { s with done := true }

def totalSize : Nat := s.prefixDropped + s.buffer.length

end StreamSession

/-- Why `read_from` returns. -/
inductive ReadEnd where
  /-- `should_stop` says so. -/
  | stopped
  /-- The sink takes no more. -/
  | refused
  /-- The session is done. -/
  | ended
  /-- `OFFSET_LOST` -/
  | lost
deriving DecidableEq

/-- Where a reader is in `read_from`. -/
inductive ReadPc where
  /-- In front of the loop, with the mutex. -/
  | looping
  /-- The sink has the chunk. -/
  | sending (chunk : List UInt8)
  | returned (why : ReadEnd)
deriving DecidableEq

/-- A reader that started at `start`. -/
structure StreamReader where
  start : Nat
  offset : Nat
  received : List UInt8 := []
  pc : ReadPc := .looping

namespace StreamReader

variable (r : StreamReader)

/-- One iteration of the loop of `read_from`; `stop` is what `should_stop` returns. -/
def look (s : StreamSession) (stop : Bool) : StreamReader :=
  if stop then { r with pc := .returned .stopped }
  else if r.offset < s.prefixDropped then { r with pc := .returned .lost }
  else if r.offset < s.totalSize then
    let localOff := r.offset - s.prefixDropped
    let n := s.buffer.length - localOff
    { r with offset := r.offset + n, pc := .sending ((s.buffer.drop localOff).take n) }
  else if s.done then { r with pc := .returned .ended }
  -- waits, and looks again
  else r

def sink (chunk : List UInt8) (keepGoing : Bool) : StreamReader :=
  { r with received := r.received ++ chunk, pc := if keepGoing then .looping else .returned .refused }

end StreamReader

/-- A session with its readers. -/
structure StreamSystem where
  session : StreamSession
  readers : List StreamReader := []

inductive StreamAction where
  | append (data : List UInt8)
  | finalize
  /-- A new reader calls `read_from`. -/
  | readFrom (offset : Nat)
  | look (i : Nat) (stop : Bool)
  | sink (i : Nat) (keepGoing : Bool)
  /-- `stream_pipe_consumer::read`, behind the bytes that the sink has got. -/
  | resume (i : Nat)

namespace StreamSystem

variable (s : StreamSystem)

def step : StreamAction → Option StreamSystem
  | .append data => some { s with session := (s.session.append data).2 }
  | .finalize => some { s with session := s.session.finalize }
  | .readFrom offset => some { s with readers := s.readers ++ [{ start := offset, offset := offset }] }
  | .look i stop =>
    match s.readers[i]? with
    | none => none
    | some r => if r.pc = .looping then some { s with readers := s.readers.set i (r.look s.session stop) } else none
  | .sink i keepGoing =>
    match s.readers[i]? with
    | none => none
    | some r =>
      match r.pc with
      | .sending chunk => some { s with readers := s.readers.set i (r.sink chunk keepGoing) }
      | _ => none
  | .resume i =>
    match s.readers[i]? with
    | none => none
    | some r =>
      match r.pc with
      | .returned _ =>
        let r := { r with offset := r.start + r.received.length, pc := .looping }
        some { s with readers := s.readers.set i r }
      | _ => none

end StreamSystem

/-! ## What the buffer holds -/

/-- The buffer is the end of what was appended, as much as the cap allows. -/
structure StreamSession.Keeps (s : StreamSession) : Prop where
  buffer : s.buffer = s.appended.drop (s.appended.length - min s.appended.length s.capBytes)
  total : s.totalSize = s.appended.length

/-- The sink has got the bytes from `start` on, and what ended the reader is true. -/
structure StreamReader.Replays (r : StreamReader) (s : StreamSession) : Prop where
  received : r.received = (s.appended.drop r.start).take r.received.length
  lost : r.pc = .returned .lost → r.start + r.received.length < s.prefixDropped
  ended : r.pc = .returned .ended → s.done = true ∧ s.appended.length ≤ r.start + r.received.length

/-- The session and its readers are faithful to what was appended. -/
def Faithful (s : StreamSystem) : Prop := s.session.Keeps ∧ ∀ r ∈ s.readers, r.Replays s.session

namespace StreamSession

variable {s : StreamSession}

theorem keeps_init (cap : Nat) : ({ capBytes := cap } : StreamSession).Keeps := ⟨rfl, rfl⟩

theorem Keeps.length (h : s.Keeps) : s.buffer.length = min s.appended.length s.capBytes := by
  rw [h.buffer, length_drop]
  omega

theorem Keeps.prefixDropped (h : s.Keeps) :
    s.prefixDropped = s.appended.length - min s.appended.length s.capBytes := by
  have hlen := h.length
  have htotal := h.total
  unfold totalSize at htotal
  omega

/-- What the buffer holds, in terms of the whole stream. -/
theorem Keeps.buffer_eq (h : s.Keeps) : s.buffer = s.appended.drop s.prefixDropped := by
  rw [h.prefixDropped]
  exact h.buffer

theorem append_appended (data : List UInt8) : ∃ more, (s.append data).2.appended = s.appended ++ more ∧
    (s.done = true → more = []) := by
  unfold append
  split
  · exact ⟨[], (append_nil _).symm, fun _ => rfl⟩
  · split
    · exact ⟨[], (append_nil _).symm, fun _ => rfl⟩
    · rename_i hdone
      split
      · exact ⟨data, rfl, fun h => absurd h hdone⟩
      · exact ⟨data, rfl, fun h => absurd h hdone⟩

theorem append_prefixDropped_le (data : List UInt8) : s.prefixDropped ≤ (s.append data).2.prefixDropped := by
  unfold append
  split
  · exact Nat.le_refl _
  · split
    · exact Nat.le_refl _
    · split
      · exact Nat.le_add_right _ _
      · exact Nat.le_add_right _ _

theorem append_done (data : List UInt8) : (s.append data).2.done = s.done := by
  unfold append
  split
  · rfl
  · split
    · rfl
    · split <;> rfl

theorem Keeps.append (h : s.Keeps) (data : List UInt8) : (s.append data).2.Keeps := by
  have hlen := h.length
  have hdropped := h.prefixDropped
  unfold StreamSession.append
  split
  · exact h
  split
  · exact h
  split
  · rename_i hcap
    -- nothing of the old buffer stays
    refine ⟨?_, ?_⟩
    · have hskip : s.appended.length + data.length - min (s.appended.length + data.length) s.capBytes =
          s.appended.length + (data.length - s.capBytes) := by omega
      rw [length_append, hskip, drop_append, drop_eq_nil_of_le (Nat.le_add_right _ _), nil_append,
        Nat.add_sub_cancel_left]
    · unfold totalSize
      dsimp only
      rw [length_append, length_drop]
      omega
  · rename_i hcap
    dsimp only
    have hdrop : (if s.capBytes < s.buffer.length + data.length then s.buffer.length + data.length - s.capBytes
        else 0) = s.buffer.length + data.length - s.capBytes := by
      split <;> omega
    rw [hdrop]
    refine ⟨?_, ?_⟩
    · dsimp only
      rw [length_append, drop_append_of_le_length (by omega), h.buffer_eq, drop_drop]
      congr 2
      rw [length_drop]
      omega
    · unfold totalSize
      dsimp only
      rw [length_append, length_append, length_drop]
      omega

end StreamSession

/-! ## What the sinks get -/

namespace StreamReader

variable {s s' : StreamSession} {r : StreamReader} {chunk : List UInt8} {more : List UInt8}

/-- Bytes that have been read stay where they are in the stream. -/
theorem take_drop_append {xs ys : List UInt8} {k : Nat} (h : ys = (xs.drop k).take ys.length) :
    ys = ((xs ++ more).drop k).take ys.length := by
  rcases Nat.le_total k xs.length with hle | hle
  · have hlen : ys.length ≤ (xs.drop k).length := by
      have := congrArg List.length h
      rw [length_take] at this
      omega
    rw [drop_append_of_le_length hle, take_append_of_le_length hlen]
    exact h
  · rw [drop_eq_nil_of_le hle, take_nil] at h
    rw [h]
    rfl

/-- More bytes enter the session, or it ends. -/
theorem Replays.mono (h : r.Replays s) (happ : s'.appended = s.appended ++ more)
    (hdrop : s.prefixDropped ≤ s'.prefixDropped) (hdone : s.done = true → s'.done = true ∧ more = []) :
    r.Replays s' where
  received := by
    rw [happ]
    exact take_drop_append h.received
  lost := fun hp => Nat.lt_of_lt_of_le (h.lost hp) hdrop
  ended := fun hp => by
    obtain ⟨hd, hle⟩ := h.ended hp
    obtain ⟨hd', rfl⟩ := hdone hd
    refine ⟨hd', ?_⟩
    rw [happ, append_nil]
    exact hle

/-- What a reader relies on between two steps. -/
structure Reads (r : StreamReader) (s : StreamSession) : Prop extends r.Replays s where
  looping : r.pc = .looping → r.offset = r.start + r.received.length
  sending : ∀ chunk, r.pc = .sending chunk → r.offset = r.start + (r.received ++ chunk).length ∧
    r.received ++ chunk = (s.appended.drop r.start).take (r.received ++ chunk).length

theorem Reads.mono (h : r.Reads s) (happ : s'.appended = s.appended ++ more)
    (hdrop : s.prefixDropped ≤ s'.prefixDropped) (hdone : s.done = true → s'.done = true ∧ more = []) :
    r.Reads s' where
  toReplays := h.toReplays.mono happ hdrop hdone
  looping := h.looping
  sending := fun chunk hp => by
    obtain ⟨hoff, hbytes⟩ := h.sending chunk hp
    refine ⟨hoff, ?_⟩
    rw [happ]
    exact take_drop_append hbytes

theorem reads_start (s : StreamSession) (offset : Nat) : ({ start := offset, offset := offset } : StreamReader).Reads s where
  received := rfl
  lost := fun hp => nomatch hp
  ended := fun hp => nomatch hp
  looping := fun _ => rfl
  sending := fun _ hp => nomatch hp

/-- The next bytes behind those that the sink has got. -/
theorem chunk_eq (hs : s.Keeps) (hr : r.received = (s.appended.drop r.start).take r.received.length)
    (hlow : s.prefixDropped ≤ r.start + r.received.length) :
    r.received ++ s.buffer.drop (r.start + r.received.length - s.prefixDropped) = s.appended.drop r.start := by
  have hrest : s.buffer.drop (r.start + r.received.length - s.prefixDropped) =
      (s.appended.drop r.start).drop r.received.length := by
    rw [hs.buffer_eq, drop_drop, drop_drop]
    congr 1
    omega
  rw [hrest]
  generalize r.received.length = k at hr ⊢
  rw [hr]
  exact take_append_drop k _

theorem Reads.look (h : r.Reads s) (hs : s.Keeps) (hpc : r.pc = .looping) (stop : Bool) : (r.look s stop).Reads s := by
  have hoff := h.looping hpc
  have htotal := hs.total
  unfold StreamReader.look
  split
  · exact ⟨⟨h.received, fun hp => (nomatch hp), fun hp => (nomatch hp)⟩, fun hp => (nomatch hp), fun _ hp => (nomatch hp)⟩
  split
  · rename_i hlost
    refine ⟨⟨h.received, fun _ => ?_, fun hp => (nomatch hp)⟩, fun hp => (nomatch hp), fun _ hp => (nomatch hp)⟩
    dsimp only
    omega
  split
  · rename_i hlow hhigh
    have hchunk := chunk_eq hs h.received (by omega)
    rw [← hoff] at hchunk
    have hlen : s.buffer.length - (r.offset - s.prefixDropped) = (s.buffer.drop (r.offset - s.prefixDropped)).length := by
      rw [length_drop]
    refine ⟨⟨h.received, fun hp => (nomatch hp), fun hp => (nomatch hp)⟩, fun hp => (nomatch hp), fun chunk hp => ?_⟩
    dsimp only at hp ⊢
    obtain rfl : (s.buffer.drop (r.offset - s.prefixDropped)).take (s.buffer.length - (r.offset - s.prefixDropped)) = chunk := by
      simpa using hp
    rw [hlen, take_length]
    refine ⟨?_, ?_⟩
    · rw [length_append]
      omega
    · rw [hchunk, take_length]
  split
  · rename_i hlow hhigh hdone
    refine ⟨⟨h.received, fun hp => (nomatch hp), fun _ => ⟨hdone, ?_⟩⟩, fun hp => (nomatch hp), fun _ hp => (nomatch hp)⟩
    dsimp only
    omega
  · exact h

theorem Reads.sink (h : r.Reads s) (hpc : r.pc = .sending chunk) (keepGoing : Bool) : (r.sink chunk keepGoing).Reads s := by
  obtain ⟨hoff, hbytes⟩ := h.sending chunk hpc
  unfold StreamReader.sink
  cases keepGoing with
  | true => exact ⟨⟨hbytes, fun hp => (nomatch hp), fun hp => (nomatch hp)⟩, fun _ => hoff, fun _ hp => (nomatch hp)⟩
  | false =>
    exact ⟨⟨hbytes, fun hp => (nomatch hp), fun hp => (nomatch hp)⟩, fun hp => (nomatch hp), fun _ hp => (nomatch hp)⟩

theorem Reads.resume (h : r.Reads s) :
    ({ r with offset := r.start + r.received.length, pc := .looping } : StreamReader).Reads s where
  received := h.received
  lost := fun hp => nomatch hp
  ended := fun hp => nomatch hp
  looping := fun _ => rfl
  sending := fun _ hp => nomatch hp

end StreamReader

/-! ## Runs -/

/-- What holds along runs of a session with its readers. -/
structure StreamInv (s : StreamSystem) : Prop where
  session : s.session.Keeps
  readers : ∀ r ∈ s.readers, r.Reads s.session

namespace StreamInv

variable {s s' : StreamSystem} {i : Nat} {r : StreamReader}

theorem setReader (h : StreamInv s) (hr : r.Reads s.session) : StreamInv { s with readers := s.readers.set i r } where
  session := h.session
  readers := fun r' hr' => by
    rcases mem_or_eq_of_mem_set hr' with hr' | rfl
    · exact h.readers r' hr'
    · exact hr

theorem step (h : StreamInv s) {a : StreamAction} (hrun : s.step a = some s') : StreamInv s' := by
  cases a with
  | append data =>
    obtain rfl := some.inj hrun
    obtain ⟨more, happ, hdone⟩ := s.session.append_appended data
    refine ⟨h.session.append data, fun r hr => (h.readers r hr).mono happ (s.session.append_prefixDropped_le data)
      fun hd => ⟨?_, hdone hd⟩⟩
    rw [StreamSession.append_done, hd]
  | finalize =>
    obtain rfl := some.inj hrun
    exact ⟨⟨h.session.buffer, h.session.total⟩, fun r hr => (h.readers r hr).mono (append_nil _).symm (Nat.le_refl _)
      fun _ => ⟨rfl, rfl⟩⟩
  | readFrom offset =>
    obtain rfl := some.inj hrun
    refine ⟨h.session, fun r hr => ?_⟩
    rcases List.mem_append.mp hr with hr | hr
    · exact h.readers r hr
    · obtain rfl := mem_singleton.mp hr
      exact StreamReader.reads_start _ offset
  | look i stop =>
    unfold StreamSystem.step at hrun
    cases hget : s.readers[i]? with
    | none => simp [hget] at hrun
    | some r =>
      simp only [hget] at hrun
      obtain ⟨hpc, hrun⟩ := ite_none_right_eq_some.mp hrun
      obtain rfl := some.inj hrun
      exact h.setReader ((h.readers r (mem_of_getElem? hget)).look h.session hpc stop)
  | sink i keepGoing =>
    unfold StreamSystem.step at hrun
    cases hget : s.readers[i]? with
    | none => simp [hget] at hrun
    | some r =>
      simp only [hget] at hrun
      split at hrun
      · rename_i chunk hpc
        obtain rfl := some.inj hrun
        exact h.setReader ((h.readers r (mem_of_getElem? hget)).sink hpc keepGoing)
      · exact nomatch hrun
  | resume i =>
    unfold StreamSystem.step at hrun
    cases hget : s.readers[i]? with
    | none => simp [hget] at hrun
    | some r =>
      simp only [hget] at hrun
      split at hrun
      · obtain rfl := some.inj hrun
        exact h.setReader (h.readers r (mem_of_getElem? hget)).resume
      · exact nomatch hrun

end StreamInv

/-- Every interleaving leaves the buffer the end of what was appended, and gives every sink the bytes from the offset
of its reader on. -/
theorem replay_faithful {cap : Nat} {s : StreamSystem}
    (h : Runs.Reaches StreamSystem.step (fun _ _ => True) ⟨{ capBytes := cap }, []⟩ s) : Faithful s := by
  have hinv : StreamInv s := h.inv (fun _ _ _ hs _ hrun => hs.step hrun)
    ⟨StreamSession.keeps_init cap, fun _ hr => absurd hr not_mem_nil⟩
  exact ⟨hinv.session, fun r hr => (hinv.readers r hr).toReplays⟩

/-- A session of three bytes: the reader is behind when a chunk of its size is appended. -/
def trimmedRun : List StreamAction :=
  [.append [1, 2], .readFrom 1, .look 0 false, .append [3, 4], .sink 0 true, .append [5, 6, 7, 8], .look 0 false,
    .readFrom 6, .look 1 false, .sink 1 true, .finalize, .look 1 false]

theorem replay_faithful_trimmed : ∃ s, trimmedRun.foldlM StreamSystem.step ⟨{ capBytes := 3 }, []⟩ = some s ∧ Faithful s := by
  have hrun : (trimmedRun.foldlM StreamSystem.step ⟨{ capBytes := 3 }, []⟩).map (fun s => s.readers.map (·.received)) =
      some [[2], [7, 8]] := by
    decide +kernel
  obtain ⟨s, hs, -⟩ := map_eq_some_iff.mp hrun
  exact ⟨s, hs, replay_faithful (Runs.Reaches.refl.ofList (fun _ _ _ => trivial) hs)⟩

end LlamaCpp.Server
