import LlamaCpp.Lib.Runs
import Mathlib.Algebra.Order.Group.Nat

/-!
# The sessions of the requests

`stream_session_manager` of server-stream.cpp with the requests, the deleting handlers and the collector that
use it.  What a thread does while it holds `map_mu`, or the mutex of a session, is one step; `create_or_replace`,
`evict`, `evict_and_cancel` and `gc_loop` finalize the sessions they have taken out in later steps.

A session is known by its index among all that were ever created.  The marks `replaced`, `deleted` and `ended`
remember why it may go.  A request that fails before it streams evicts what is stored under its conversation
id, whoever has put it there (`evict_foreign_session`).  In runs where that is nothing or its own session
(`EvictsOwn`), a session without a mark is stored and not finalized (`reaches_unmarkedLive`).
-/

namespace LlamaCpp.Server

open List Option

abbrev streamSessionTtlSeconds : Int := 300

/-- `stream_session`, without its bytes. -/
structure Session where
  conversationId : String
  done : Bool := false
  cancelled : Bool := false
  completedTs : Int := 0
  /-- Another session was installed in its place. -/
  replaced : Bool := false
  /-- `DELETE /v1/stream` has removed it. -/
  deleted : Bool := false
  /-- Its own request has evicted it or given it up. -/
  ended : Bool := false
deriving DecidableEq

namespace Session

variable (x : Session)

/-- `finalize`, at the time `now`. -/
def finalize (now : Int) : Session := if x.done then x else { x with done := true, completedTs := now }

def cancel : Session := { x with cancelled := true }

/-- The session is to be dropped by a sweep with this cutoff. -/
def Expired (cutoff : Int) : Prop := x.completedTs ≠ 0 ∧ x.completedTs ≤ cutoff

instance (cutoff : Int) : Decidable (x.Expired cutoff) := inferInstanceAs (Decidable (_ ∧ _))

/-- The session was replaced, deleted or ended by its own request. -/
def Marked : Prop := x.replaced = true ∨ x.deleted = true ∨ x.ended = true

end Session

inductive RequestPc where
  | start
  /-- In `create_or_replace`, in front of `previous->cancel()`. -/
  | replacing (previous : Option Nat)
  /-- In front of `previous->finalize()`. -/
  | finalizing (previous : Nat)
  /-- `set_req` has returned, and `next_orig` is empty. -/
  | handling
  /-- `set_next` has run. -/
  | streaming
  /-- `next_finished` -/
  | streamed
  /-- In the loop of `on_complete`. -/
  | draining
  /-- In `evict`, in front of `finalize`. -/
  | evicting (k : Nat)
  | completed
  | destroyed
deriving DecidableEq

/-- `server_res_spipe` -/
structure StreamRequest where
  conversationId : String := ""
  /-- The session of `spipe`. -/
  session : Option Nat := none
  pc : RequestPc := .start

/-- Where a handler of `DELETE /v1/stream` is in `evict_and_cancel`. -/
inductive DeletePc where
  /-- In front of `cancel`. -/
  | erased (k : Nat)
  /-- In front of `finalize`. -/
  | cancelled (k : Nat)
  | returned

/-- The manager and the threads that use it. -/
structure SessionSystem where
  /-- All sessions that were created. -/
  created : List Session := []
  /-- `sessions` of the manager. -/
  sessions : String → Option Nat := fun _ => none
  requests : Nat → StreamRequest := fun _ => {}
  deletes : List DeletePc := []
  /-- `to_drop` of `gc_loop`, as far as it is not finalized. -/
  toDrop : List Nat := []

inductive SessionAction where
  /-- `set_req`, to the end of the lock of `create_or_replace`. -/
  | setReq (i : Nat) (conversationId : String)
  | cancelPrevious (i : Nat)
  | finalizePrevious (i : Nat) (now : Int)
  | setNext (i : Nat)
  | next (i : Nat) (hasNext : Bool)
  /-- `on_complete`, to the loop or to the end of the lock of `evict`. -/
  | onComplete (i : Nat)
  | finalizeEvicted (i : Nat) (now : Int)
  /-- An iteration of the loop of `on_complete`. -/
  | drain (i : Nat) (hasNext : Bool)
  /-- The response is destroyed, and with it `spipe`. -/
  | destroy (i : Nat) (now : Int)
  | delete (conversationId : String)
  | cancelDeleted (j : Nat)
  | finalizeDeleted (j : Nat) (now : Int)
  /-- `gc_loop` holds the lock. -/
  | sweep (now : Int)
  | drop (now : Int)

namespace SessionSystem

variable (s : SessionSystem)

def modify (k : Nat) (f : Session → Session) : SessionSystem := { s with created := s.created.modify k f }

def setSession (conversationId : String) (k : Option Nat) : SessionSystem :=
  { s with sessions := Function.update s.sessions conversationId k }

def setRequest (i : Nat) (r : StreamRequest) : SessionSystem := { s with requests := Function.update s.requests i r }

def setPc (i : Nat) (pc : RequestPc) : SessionSystem := s.setRequest i { s.requests i with pc := pc }

/-- What `create_or_replace` does under the lock, for request `i`. -/
def install (i : Nat) (conversationId : String) : SessionSystem :=
  let fresh := s.created.length
  let previous := s.sessions conversationId
  let created := match previous with
    | some k => s.created.modify k fun x => { x with replaced := true }
    | none => s.created
  let session : Session := { conversationId := conversationId }
  ({ s with created := created ++ [session] }.setSession conversationId (some fresh)).setRequest i
    { conversationId := conversationId, session := some fresh, pc := .replacing previous }

/-- What `evict` does under the lock, for request `i`. -/
def evict (i : Nat) : SessionSystem :=
  match s.sessions (s.requests i).conversationId with
  | none => s.setPc i .completed
  | some k =>
    let marked := if (s.requests i).session = some k then s.modify k fun x => { x with ended := true } else s
    (marked.setSession (s.requests i).conversationId none).setPc i (.evicting k)

def evictAndCancel (conversationId : String) : SessionSystem :=
  match s.sessions conversationId with
  | none => s
  | some k =>
    let marked := s.modify k fun x => { x with deleted := true }
    let erased := marked.setSession conversationId none
    { erased with deletes := erased.deletes ++ [.erased k] }

/-- The session under an id is to be dropped by a sweep. -/
def Drops (cutoff : Int) (k : Nat) : Prop :=
  ∃ x ∈ s.created[k]?, s.sessions x.conversationId = some k ∧ x.Expired cutoff

instance (cutoff : Int) (k : Nat) : Decidable (s.Drops cutoff k) :=
  inferInstanceAs (Decidable (∃ x ∈ s.created[k]?, _ ∧ _))

/-- What `gc_loop` does under the lock. -/
def sweep (cutoff : Int) : SessionSystem :=
  { s with
    sessions := fun conversationId => (s.sessions conversationId).filter fun k => ¬ s.Drops cutoff k
    toDrop := (List.range s.created.length).filter fun k => s.Drops cutoff k }

def step : SessionAction → Option SessionSystem
  | .setReq i conversationId =>
    if (s.requests i).pc = .start then
      if conversationId = "" then some (s.setPc i .handling) else some (s.install i conversationId)
    else none
  | .cancelPrevious i =>
    match (s.requests i).pc with
    | .replacing none => some (s.setPc i .handling)
    | .replacing (some k) => some ((s.modify k Session.cancel).setPc i (.finalizing k))
    | _ => none
  | .finalizePrevious i now =>
    match (s.requests i).pc with
    | .finalizing k => some ((s.modify k (Session.finalize · now)).setPc i .handling)
    | _ => none
  | .setNext i => if (s.requests i).pc = .handling then some (s.setPc i .streaming) else none
  | .next i hasNext =>
    if (s.requests i).pc = .streaming then some (s.setPc i (if hasNext then .streaming else .streamed)) else none
  | .onComplete i =>
    match (s.requests i).pc with
    | .streamed => some (s.setPc i .completed)
    | .handling => some (if (s.requests i).session = none then s.setPc i .completed else s.evict i)
    | .streaming => some (s.setPc i (if (s.requests i).session = none then .completed else .draining))
    | _ => none
  | .finalizeEvicted i now =>
    match (s.requests i).pc with
    | .evicting k => some ((s.modify k (Session.finalize · now)).setPc i .completed)
    | _ => none
  | .drain i hasNext =>
    if (s.requests i).pc = .draining then
      let cancelled := (((s.requests i).session.bind (s.created[·]?)).map (·.cancelled)).getD false
      some (if cancelled ∨ ¬hasNext then s.setPc i .completed else s)
    else none
  | .destroy i now =>
    -- an exception in the handler destroys the response without `on_complete`
    if (s.requests i).pc = .completed ∨ (s.requests i).pc = .handling then
      match (s.requests i).session with
      | none => some (s.setPc i .destroyed)
      | some k => some ((s.modify k fun x => { x.finalize now with ended := true }).setPc i .destroyed)
    else none
  | .delete conversationId => some (s.evictAndCancel conversationId)
  | .cancelDeleted j =>
    match s.deletes[j]? with
    | some (.erased k) => some { s.modify k Session.cancel with deletes := s.deletes.set j (.cancelled k) }
    | _ => none
  | .finalizeDeleted j now =>
    match s.deletes[j]? with
    | some (.cancelled k) => some { s.modify k (Session.finalize · now) with deletes := s.deletes.set j .returned }
    | _ => none
  | .sweep now => if s.toDrop = [] then some (s.sweep (now - streamSessionTtlSeconds)) else none
  | .drop now =>
    match s.toDrop with
    | k :: ks => some { s.modify k (Session.finalize · now) with toDrop := ks }
    | [] => none

end SessionSystem

/-- A session that was not replaced, deleted or ended by its own request is not finalized, and it is stored. -/
def UnmarkedLive (s : SessionSystem) : Prop :=
  ∀ k, ∀ x ∈ s.created[k]?, ¬x.Marked → x.done = false ∧ s.sessions x.conversationId = some k

/-- A request that fails before it streams finds its own session under its conversation id, or none. -/
def EvictsOwn (s : SessionSystem) : SessionAction → Prop
  | .onComplete i =>
    (s.requests i).pc = .handling → (s.requests i).session ≠ none →
      s.sessions (s.requests i).conversationId = none ∨
        s.sessions (s.requests i).conversationId = (s.requests i).session
  | _ => True

/-! ## Marked sessions -/

namespace SessionSystem

variable {s s' : SessionSystem} {k : Nat} {f : Session → Session}

/-- Session `k` has a mark. -/
def MarkedAt (s : SessionSystem) (k : Nat) : Prop := ∃ x ∈ s.created[k]?, x.Marked

theorem modify_created (s : SessionSystem) (k : Nat) (f : Session → Session) (j : Nat) :
    (s.modify k f).created[j]? = if k = j then s.created[j]?.map f else s.created[j]? := by
  show (s.created.modify k f)[j]? = _
  rw [getElem?_modify]
  split <;> simp

theorem finalize_marked {x : Session} (now : Int) (h : x.Marked) : (x.finalize now).Marked := by
  unfold Session.finalize
  split
  · exact h
  · exact h

theorem finalize_conversationId (x : Session) (now : Int) : (x.finalize now).conversationId = x.conversationId := by
  unfold Session.finalize
  split <;> rfl

theorem MarkedAt.modify (hf : ∀ x : Session, x.Marked → (f x).Marked) {j : Nat} (h : s.MarkedAt j) :
    (s.modify k f).MarkedAt j := by
  obtain ⟨x, hx, hm⟩ := h
  by_cases hkj : k = j
  · refine ⟨f x, ?_, hf x hm⟩
    rw [mem_def, modify_created, if_pos hkj, hx, map_some]
  · exact ⟨x, by rw [mem_def, modify_created, if_neg hkj, hx], hm⟩

theorem MarkedAt.cancel {j : Nat} (h : s.MarkedAt j) : (s.modify k Session.cancel).MarkedAt j :=
  h.modify (f := Session.cancel) fun _ hm => hm

theorem MarkedAt.of_modify {x : Session} (hx : x ∈ s.created[k]?) (hf : ∀ x : Session, (f x).Marked) :
    (s.modify k f).MarkedAt k :=
  ⟨f x, by rw [mem_def, modify_created, if_pos rfl, hx, map_some], hf x⟩

end SessionSystem

/-! ## Runs -/

/-- The session that the thread of a request is about to finalize. -/
def RequestPc.held : RequestPc → Option Nat
  | .replacing previous => previous
  | .finalizing previous => some previous
  | .evicting k => some k
  | _ => none

/-- The session that a deleting handler is about to finalize. -/
def DeletePc.held : DeletePc → Option Nat
  | .erased k => some k
  | .cancelled k => some k
  | .returned => none

/-- What holds along runs in which failed requests evict their own sessions. -/
structure SessionInv (s : SessionSystem) : Prop where
  live : UnmarkedLive s
  stored : ∀ c, ∀ k ∈ s.sessions c, ∃ x ∈ s.created[k]?, x.conversationId = c
  completed : ∀ (k : Nat) (x : Session), x ∈ s.created[k]? → x.completedTs ≠ 0 → x.done = true
  requests : ∀ i, ∀ k ∈ (s.requests i).pc.held, s.MarkedAt k
  deletes : ∀ d ∈ s.deletes, ∀ k ∈ d.held, s.MarkedAt k
  toDrop : ∀ k ∈ s.toDrop, s.MarkedAt k

namespace SessionInv

variable {s s' : SessionSystem} {i k : Nat} {c : String} {f : Session → Session} {j : Nat}
  {x y : Session}

theorem init : SessionInv {} where
  live := fun _ _ hx => nomatch hx
  stored := fun _ _ hk => nomatch hk
  completed := fun _ _ hx => nomatch hx
  requests := fun _ _ hk => nomatch hk
  deletes := fun _ hd => absurd hd not_mem_nil
  toDrop := fun _ hk => absurd hk not_mem_nil

theorem setRequest (h : SessionInv s) {r : StreamRequest} (hr : ∀ k ∈ r.pc.held, s.MarkedAt k) :
    SessionInv (s.setRequest i r) :=
  { h with
    requests := fun j k hk => by
      rcases eq_or_ne j i with rfl | hne
      · exact hr k (by simpa [SessionSystem.setRequest] using hk)
      · exact h.requests j k (by simpa [SessionSystem.setRequest, hne] using hk) }

theorem setPc (h : SessionInv s) {pc : RequestPc} (hpc : ∀ k ∈ pc.held, s.MarkedAt k) : SessionInv (s.setPc i pc) :=
  h.setRequest hpc

/-- A session is changed: its id stays, it keeps its mark, and it is finalized only under a mark. -/
theorem modify (h : SessionInv s) (hid : ∀ x : Session, (f x).conversationId = x.conversationId)
    (hmark : ∀ x : Session, x.Marked → (f x).Marked)
    (hdone : ∀ x ∈ s.created[k]?, ¬(f x).Marked → (f x).done = x.done)
    (hts : ∀ x : Session, (x.completedTs ≠ 0 → x.done = true) → (f x).completedTs ≠ 0 → (f x).done = true) :
    SessionInv (s.modify k f) where
  live := fun j x hx hm => by
    rw [mem_def, SessionSystem.modify_created] at hx
    split at hx
    · rename_i hkj
      subst hkj
      obtain ⟨y, hy, rfl⟩ := map_eq_some_iff.mp hx
      obtain ⟨hlive, hmap⟩ := h.live k y hy fun hym => hm (hmark y hym)
      exact ⟨(hdone y hy hm).trans hlive, (congrArg s.sessions (hid y)).trans hmap⟩
    · exact h.live j x hx hm
  stored := fun c j hj => by
    obtain ⟨x, hx, hc⟩ := h.stored c j hj
    rcases eq_or_ne k j with rfl | hne
    · exact ⟨f x, by rw [mem_def, SessionSystem.modify_created, if_pos rfl, hx, map_some], (hid x).trans hc⟩
    · exact ⟨x, by rw [mem_def, SessionSystem.modify_created, if_neg hne, hx], hc⟩
  completed := fun j x hx => by
    rw [mem_def, SessionSystem.modify_created] at hx
    split at hx
    · obtain ⟨y, hy, rfl⟩ := map_eq_some_iff.mp hx
      exact hts y (h.completed j y hy)
    · exact h.completed j x hx
  requests := fun i j hj => (h.requests i j hj).modify hmark
  deletes := fun d hd j hj => (h.deletes d hd j hj).modify hmark
  toDrop := fun j hj => (h.toDrop j hj).modify hmark

theorem cancel (h : SessionInv s) : SessionInv (s.modify k Session.cancel) :=
  h.modify (fun _ => rfl) (fun _ hm => hm) (fun _ _ _ => rfl) fun _ hx => hx

theorem finalize_completed (now : Int) (x : Session) (h : x.completedTs ≠ 0 → x.done = true) :
    (x.finalize now).completedTs ≠ 0 → (x.finalize now).done = true := by
  unfold Session.finalize
  split
  · exact h
  · exact fun _ => rfl

theorem finalize (h : SessionInv s) (hk : s.MarkedAt k) (now : Int) : SessionInv (s.modify k (Session.finalize · now)) := by
  refine h.modify (fun x => SessionSystem.finalize_conversationId x now) (fun x => SessionSystem.finalize_marked now)
    (fun x hx hm => ?_) (finalize_completed now)
  obtain ⟨y, hy, hym⟩ := hk
  obtain rfl := some.inj (hx.symm.trans hy)
  exact absurd (SessionSystem.finalize_marked now hym) hm

theorem mark (h : SessionInv s) (hid : ∀ x : Session, (f x).conversationId = x.conversationId)
    (hmark : ∀ x : Session, (f x).Marked) (hdone : ∀ x : Session, (f x).done = x.done)
    (hts : ∀ x : Session, (f x).completedTs = x.completedTs) : SessionInv (s.modify k f) :=
  h.modify hid (fun x _ => hmark x) (fun x _ _ => hdone x) fun x hx ht => by
    rw [hdone]
    exact hx ((hts x).symm.trans_ne ht)

theorem erase (h : SessionInv s) (hk : ∀ k ∈ s.sessions c, s.MarkedAt k) : SessionInv (s.setSession c none) :=
  { h with
    live := fun j x hx hm => by
      obtain ⟨hdone, hmap⟩ := h.live j x hx hm
      refine ⟨hdone, ?_⟩
      rcases eq_or_ne x.conversationId c with rfl | hne
      · obtain ⟨y, hy, hym⟩ := hk j hmap
        obtain rfl := some.inj (hx.symm.trans hy)
        exact absurd hym hm
      · exact (Function.update_of_ne hne _ _).trans hmap
    stored := fun c' j hj => by
      rcases eq_or_ne c' c with rfl | hne
      · simp [SessionSystem.setSession] at hj
      · exact h.stored c' j (by simpa [SessionSystem.setSession, hne] using hj) }

theorem mem_append (h : x ∈ (s.created ++ [y])[j]?) : x ∈ s.created[j]? ∨ j = s.created.length ∧ x = y := by
  rcases Nat.lt_or_ge j s.created.length with hlt | hge
  · exact Or.inl ((getElem?_append_left hlt).symm.trans h)
  · have hget : [y][j - s.created.length]? = some x := (getElem?_append_right hge).symm.trans h
    obtain ⟨hlt, hget⟩ := List.getElem?_eq_some_iff.mp hget
    rw [length_singleton] at hlt
    exact Or.inr ⟨by omega, by simpa using hget.symm⟩

theorem append_mem (h : x ∈ s.created[j]?) : x ∈ (s.created ++ [y])[j]? := by
  obtain ⟨hlt, -⟩ := List.getElem?_eq_some_iff.mp h
  rw [mem_def, getElem?_append_left hlt]
  exact h

theorem markedAt_append (h : s.MarkedAt j) : SessionSystem.MarkedAt { s with created := s.created ++ [y] } j := by
  obtain ⟨x, hx, hm⟩ := h
  exact ⟨x, append_mem hx, hm⟩

/-- A new session takes the place of a marked one. -/
theorem insert (h : SessionInv s) (hk : ∀ k ∈ s.sessions c, s.MarkedAt k) :
    SessionInv (SessionSystem.setSession { s with created := s.created ++ [{ conversationId := c }] } c
      (some s.created.length)) where
  live := fun j x hx hm => by
    rcases mem_append hx with hold | ⟨rfl, rfl⟩
    · obtain ⟨hdone, hmap⟩ := h.live j x hold hm
      refine ⟨hdone, ?_⟩
      rcases eq_or_ne x.conversationId c with rfl | hne
      · obtain ⟨y, hy, hym⟩ := hk j hmap
        obtain rfl := some.inj (hold.symm.trans hy)
        exact absurd hym hm
      · exact (Function.update_of_ne hne _ _).trans hmap
    · exact ⟨rfl, by simp [SessionSystem.setSession]⟩
  stored := fun c' j hj => by
    rcases eq_or_ne c' c with rfl | hne
    · obtain rfl : s.created.length = j := by simpa [SessionSystem.setSession] using hj
      exact ⟨{ conversationId := c' }, by simp [SessionSystem.setSession], rfl⟩
    · obtain ⟨x, hx, hc⟩ := h.stored c' j (by simpa [SessionSystem.setSession, hne] using hj)
      exact ⟨x, append_mem hx, hc⟩
  completed := fun j x hx => by
    rcases mem_append hx with hx | ⟨rfl, rfl⟩
    · exact h.completed j x hx
    · exact fun ht => absurd rfl ht
  requests := fun i j hj => markedAt_append (h.requests i j hj)
  deletes := fun d hd j hj => markedAt_append (h.deletes d hd j hj)
  toDrop := fun j hj => markedAt_append (h.toDrop j hj)

theorem marked_of_completed (h : SessionInv s) (hx : x ∈ s.created[k]?) (ht : x.completedTs ≠ 0) : x.Marked := by
  by_contra hm
  exact absurd ((h.live k x hx hm).1.symm.trans (h.completed k x hx ht)) Bool.false_ne_true

theorem sweep (h : SessionInv s) (cutoff : Int) : SessionInv (s.sweep cutoff) :=
  { h with
    live := fun j x hx hm => by
      obtain ⟨hdone, hmap⟩ := h.live j x hx hm
      refine ⟨hdone, ?_⟩
      have hkeep : ¬s.Drops cutoff j := by
        rintro ⟨y, hy, -, hts, -⟩
        obtain rfl := some.inj (hx.symm.trans hy)
        exact hm (h.marked_of_completed hx hts)
      show (s.sessions x.conversationId).filter _ = some j
      rw [hmap, filter_some, if_pos (decide_eq_true hkeep)]
    stored := fun c j hj => h.stored c j (mem_filter_iff.mp hj).1
    toDrop := fun j hj => by
      obtain ⟨x, hx, -, hts, -⟩ := of_decide_eq_true (mem_filter.mp hj).2
      exact ⟨x, hx, h.marked_of_completed hx hts⟩ }

theorem install (h : SessionInv s) (i : Nat) (c : String) : SessionInv (s.install i c) := by
  unfold SessionSystem.install
  cases hprev : s.sessions c with
  | none =>
    refine (h.insert (c := c) fun k hk => ?_).setRequest fun k hk => (nomatch hk)
    rw [hprev] at hk
    nomatch hk
  | some k =>
    obtain ⟨x, hx, -⟩ := h.stored c k hprev
    have hmark : (s.modify k fun x => { x with replaced := true }).MarkedAt k :=
      SessionSystem.MarkedAt.of_modify hx fun _ => Or.inl rfl
    have hmod : SessionInv (s.modify k fun x => { x with replaced := true }) :=
      h.mark (fun _ => rfl) (fun _ => Or.inl rfl) (fun _ => rfl) fun _ => rfl
    have hins := hmod.insert (c := c) fun j hj => by
      obtain rfl := some.inj (hprev.symm.trans hj)
      exact hmark
    rw [show (s.modify k fun x => { x with replaced := true }).created.length = s.created.length from
      length_modify ..] at hins
    refine hins.setRequest fun j hj => ?_
    obtain rfl := some.inj hj
    exact markedAt_append hmark

/-- A request evicts its own session, or finds nothing to evict. -/
theorem evict (h : SessionInv s) (hown : s.sessions (s.requests i).conversationId = none ∨
    s.sessions (s.requests i).conversationId = (s.requests i).session) : SessionInv (s.evict i) := by
  unfold SessionSystem.evict
  cases hmap : s.sessions (s.requests i).conversationId with
  | none => exact h.setPc fun _ hk => (nomatch hk)
  | some k =>
    rw [hmap] at hown
    have hsession : (s.requests i).session = some k := (hown.resolve_left nofun).symm
    simp only [hsession, if_true]
    obtain ⟨x, hx, -⟩ := h.stored _ k hmap
    have hmark : (s.modify k fun x => { x with ended := true }).MarkedAt k :=
      SessionSystem.MarkedAt.of_modify hx fun _ => Or.inr (Or.inr rfl)
    have hmod : SessionInv (s.modify k fun x => { x with ended := true }) :=
      h.mark (fun _ => rfl) (fun _ => Or.inr (Or.inr rfl)) (fun _ => rfl) fun _ => rfl
    refine (hmod.erase fun j hj => ?_).setPc fun j hj => ?_
    · obtain rfl := some.inj (hmap.symm.trans hj)
      exact hmark
    · obtain rfl := some.inj hj
      exact hmark

theorem setDeletes (h : SessionInv s) {ds : List DeletePc} (hds : ∀ d ∈ ds, d ∈ s.deletes ∨ ∀ k ∈ d.held, s.MarkedAt k) :
    SessionInv { s with deletes := ds } :=
  { h with
    deletes := fun d hd => (hds d hd).elim (h.deletes d) id }

theorem evictAndCancel (h : SessionInv s) (c : String) : SessionInv (s.evictAndCancel c) := by
  unfold SessionSystem.evictAndCancel
  cases hmap : s.sessions c with
  | none => exact h
  | some k =>
    obtain ⟨x, hx, -⟩ := h.stored c k hmap
    have hmark : (s.modify k fun x => { x with deleted := true }).MarkedAt k :=
      SessionSystem.MarkedAt.of_modify hx fun _ => Or.inr (Or.inl rfl)
    have hmod : SessionInv (s.modify k fun x => { x with deleted := true }) :=
      h.mark (fun _ => rfl) (fun _ => Or.inr (Or.inl rfl)) (fun _ => rfl) fun _ => rfl
    refine (hmod.erase fun j hj => ?_).setDeletes fun d hd => ?_
    · obtain rfl := some.inj (hmap.symm.trans hj)
      exact hmark
    · rcases List.mem_append.mp hd with hd | hd
      · exact Or.inl hd
      · obtain rfl := mem_singleton.mp hd
        exact Or.inr fun j hj => some.inj hj ▸ hmark

/-- A request gives up its own session. -/
theorem destroy (h : SessionInv s) (k : Nat) (now : Int) :
    SessionInv (s.modify k fun x => { x.finalize now with ended := true }) :=
  h.modify (fun x => SessionSystem.finalize_conversationId x now) (fun _ _ => Or.inr (Or.inr rfl))
    (fun _ _ hm => absurd (Or.inr (Or.inr rfl)) hm) (finalize_completed now)

theorem step (h : SessionInv s) {a : SessionAction} (hown : EvictsOwn s a) (hrun : s.step a = some s') : SessionInv s' := by
  unfold SessionSystem.step at hrun
  cases a with
  | setReq i c =>
    obtain ⟨-, hrun⟩ := ite_none_right_eq_some.mp hrun
    split at hrun
    · obtain rfl := some.inj hrun
      exact h.setPc fun _ hk => (nomatch hk)
    · obtain rfl := some.inj hrun
      exact h.install i c
  | cancelPrevious i =>
    dsimp only at hrun
    split at hrun
    · obtain rfl := some.inj hrun
      exact h.setPc fun _ hk => (nomatch hk)
    · rename_i k hpc
      obtain rfl := some.inj hrun
      have hk : s.MarkedAt k := h.requests i k (by rw [hpc]; rfl)
      exact h.cancel.setPc fun j hj => some.inj hj ▸ hk.cancel
    · nomatch hrun
  | finalizePrevious i now | finalizeEvicted i now =>
    dsimp only at hrun
    split at hrun
    · rename_i k hpc
      obtain rfl := some.inj hrun
      exact (h.finalize (h.requests i k (by rw [hpc]; rfl)) now).setPc fun _ hk => (nomatch hk)
    · nomatch hrun
  | setNext i =>
    obtain ⟨-, hrun⟩ := ite_none_right_eq_some.mp hrun
    obtain rfl := some.inj hrun
    exact h.setPc fun _ hk => (nomatch hk)
  | next i hasNext =>
    obtain ⟨-, hrun⟩ := ite_none_right_eq_some.mp hrun
    obtain rfl := some.inj hrun
    exact h.setPc fun _ hk => by split at hk <;> nomatch hk
  | onComplete i =>
    dsimp only at hrun
    split at hrun
    · obtain rfl := some.inj hrun
      exact h.setPc fun _ hk => (nomatch hk)
    · rename_i hpc
      obtain rfl := some.inj hrun
      split
      · exact h.setPc fun _ hk => (nomatch hk)
      · rename_i hsession
        exact h.evict (hown hpc hsession)
    · obtain rfl := some.inj hrun
      exact h.setPc fun _ hk => by split at hk <;> nomatch hk
    · nomatch hrun
  | drain i hasNext =>
    obtain ⟨-, hrun⟩ := ite_none_right_eq_some.mp hrun
    obtain rfl := some.inj hrun
    split
    · exact h.setPc fun _ hk => (nomatch hk)
    · exact h
  | destroy i now =>
    obtain ⟨-, hrun⟩ := ite_none_right_eq_some.mp hrun
    split at hrun
    · obtain rfl := some.inj hrun
      exact h.setPc fun _ hk => (nomatch hk)
    · obtain rfl := some.inj hrun
      exact (h.destroy _ now).setPc fun _ hk => (nomatch hk)
  | delete c =>
    obtain rfl := some.inj hrun
    exact h.evictAndCancel c
  | cancelDeleted j =>
    dsimp only at hrun
    split at hrun
    · rename_i k hget
      obtain rfl := some.inj hrun
      have hk : s.MarkedAt k := h.deletes _ (mem_of_getElem? hget) k rfl
      refine h.cancel.setDeletes fun d hd => ?_
      rcases mem_or_eq_of_mem_set hd with hd | rfl
      · exact Or.inl hd
      · exact Or.inr fun j hj => some.inj hj ▸ hk.cancel
    · nomatch hrun
  | finalizeDeleted j now =>
    dsimp only at hrun
    split at hrun
    · rename_i k hget
      obtain rfl := some.inj hrun
      refine (h.finalize (h.deletes _ (mem_of_getElem? hget) k rfl) now).setDeletes fun d hd => ?_
      rcases mem_or_eq_of_mem_set hd with hd | rfl
      · exact Or.inl hd
      · exact Or.inr fun _ hk => (nomatch hk)
    · nomatch hrun
  | sweep now =>
    obtain ⟨-, hrun⟩ := ite_none_right_eq_some.mp hrun
    obtain rfl := some.inj hrun
    exact h.sweep _
  | drop now =>
    dsimp only at hrun
    split at hrun
    · rename_i k ks hdrop
      obtain rfl := some.inj hrun
      have hmem : ∀ j ∈ ks, j ∈ s.toDrop := fun j hj => hdrop ▸ mem_cons_of_mem _ hj
      have hfin := h.finalize (h.toDrop k (hdrop ▸ mem_cons_self)) now
      exact { hfin with toDrop := fun j hj => hfin.toDrop j (hmem j hj) }
    · nomatch hrun

end SessionInv

/-- In runs in which every request that fails before it streams finds its own session, or none, a session that was
not replaced, deleted or ended by its own request is stored and not finalized. -/
theorem reaches_unmarkedLive {s : SessionSystem} (h : Runs.Reaches SessionSystem.step EvictsOwn {} s) : UnmarkedLive s :=
  (h.inv (fun _ _ _ hs hown hrun => hs.step hown hrun) SessionInv.init).live

/-- Two requests of one conversation: the second replaces the session of the first. -/
def replacingRun : List SessionAction :=
  [.setReq 0 "c", .cancelPrevious 0, .setNext 0, .next 0 true, .setReq 1 "c", .cancelPrevious 1, .finalizePrevious 1 7]

/-- The second fails, and the collector passes. -/
def failingRun : List SessionAction := [.onComplete 1, .finalizeEvicted 1 8, .sweep 400]

theorem reaches_unmarkedLive_replaced :
    ∃ s, (replacingRun ++ failingRun).foldlM SessionSystem.step {} = some s ∧ UnmarkedLive s := by
  have hrun : ((replacingRun.foldlM SessionSystem.step {}).bind fun s =>
      if s.sessions (s.requests 1).conversationId = (s.requests 1).session then failingRun.foldlM SessionSystem.step s
      else none).isSome := by
    decide +kernel
  obtain ⟨s', hrun⟩ := isSome_iff_exists.mp hrun
  obtain ⟨s, hs, hrun⟩ := bind_eq_some_iff.mp hrun
  obtain ⟨hown, hrun⟩ := ite_none_right_eq_some.mp hrun
  obtain ⟨s₁, hs₁, hrest⟩ := bind_eq_some_iff.mp hrun
  have hfirst : Runs.Reaches SessionSystem.step EvictsOwn {} s :=
    Runs.Reaches.refl.ofList (by simp [replacingRun, EvictsOwn]) hs
  have hcomplete : EvictsOwn s (.onComplete 1) := fun _ _ => .inr hown
  refine ⟨s', ?_, reaches_unmarkedLive ((hfirst.step hcomplete hs₁).ofList (by simp [EvictsOwn]) hrest)⟩
  rw [foldlM_append, hs]
  exact hrun

/-- The first of two requests fails when the second has replaced its session: the session of the second goes. -/
theorem evict_foreign_session : ¬∀ s, Runs.Reaches SessionSystem.step (fun _ _ => True) {} s → UnmarkedLive s := by
  intro h
  have hrun : ([.setReq 0 "c", .cancelPrevious 0, .setReq 1 "c", .cancelPrevious 1, .finalizePrevious 1 7, .setNext 1,
      .next 1 true, .onComplete 0, .finalizeEvicted 0 8].foldlM SessionSystem.step {}).map (·.created[1]?) =
      some (some { conversationId := "c", done := true, completedTs := 8 }) := by
    decide +kernel
  obtain ⟨s, hs, hx⟩ := map_eq_some_iff.mp hrun
  have hlive := h s (Runs.Reaches.refl.ofList (fun _ _ _ => trivial) hs) 1 _ hx (by simp [Session.Marked])
  exact absurd hlive.1 (by decide)

end LlamaCpp.Server
