import LlamaCpp.Rpc.Fences
import Mathlib.Data.Finset.Max

/-!
# Where a fenced read is among the commands

`FenceInv` is the invariant of a coordinator and its workers.  The log of a worker has the commands of the coordinator in
their order, so that the read of a pull is behind those that its fence covers, and the commands that are sent after the copy
call has returned come behind it.  What is between them is not ordered with the read: commands that were sent during the
call, writes of other pulls, and what other clients do.

A pull waits only for pulls whose requests went out before its own, so that some pull in flight waits for none.
-/

namespace LlamaCpp.Rpc

open List Option

open Function (update)

variable {M V : Type}

/-! ## Logs -/

/-- The place of the command that an event is the end of. -/
def WorkerEvent.place? : WorkerEvent M → Option Nat
  | .cmd i _ => some i
  | _ => none

def places (log : List (WorkerEvent M)) : List Nat := log.filterMap WorkerEvent.place?

theorem places_append (log log' : List (WorkerEvent M)) : places (log ++ log') = places log ++ places log' :=
  filterMap_append

theorem memAfter_append (m : M) (log log' : List (WorkerEvent M)) :
    memAfter m (log ++ log') = memAfter (memAfter m log) log' := foldl_append

theorem mem_places {log : List (WorkerEvent M)} {i : Nat} : i ∈ places log ↔ ∃ f, .cmd i f ∈ log := by
  rw [places, mem_filterMap]
  constructor
  · rintro ⟨e, he, hi⟩
    cases e with
    | cmd j f =>
      obtain rfl := some.inj hi
      exact ⟨f, he⟩
    | other f | read k | write k f => cases hi
  · rintro ⟨f, hf⟩
    exact ⟨_, hf, rfl⟩

/-- Events that do not change what is read. -/
theorem get_memAfter {get : M → V} {log : List (WorkerEvent M)} (h : ∀ e ∈ log, ∀ m, get (e.effect m) = get m) (m : M) :
    get (memAfter m log) = get m := by
  induction log generalizing m with
  | nil => rfl
  | cons e log ih =>
    rw [memAfter, foldl_cons]
    exact (ih (fun e' he' => h e' (mem_cons_of_mem e he')) _).trans (h e mem_cons_self m)

namespace Net

variable {log : List (WorkerEvent M)}

theorem former_append {n : Nat} (h : ∃ i ∈ places log, i + 1 = n) (rest : List (WorkerEvent M)) :
    former n (log ++ rest) = former n log := by
  induction log with
  | nil =>
    obtain ⟨i, hi, _⟩ := h
    cases hi
  | cons e log ih =>
    have htail : (∀ i f, e = .cmd i f → i + 1 ≠ n) → ∃ i ∈ places log, i + 1 = n := by
      intro hne
      obtain ⟨i, hi, hin⟩ := h
      obtain ⟨f, hf⟩ := mem_places.mp hi
      rcases mem_cons.mp hf with rfl | hf
      · exact absurd hin (hne i f rfl)
      · exact ⟨i, mem_places.mpr ⟨f, hf⟩, hin⟩
    cases e with
    | cmd i f =>
      by_cases hi : i + 1 = n
      · simp only [cons_append, former, if_pos hi]
      · have hne : ∀ j g, WorkerEvent.cmd i f = .cmd j g → j + 1 ≠ n := by
          rintro j g h
          cases h
          exact hi
        simp only [cons_append, former, if_neg hi]
        rw [ih (htail hne)]
    | other f | read k | write k f =>
      simp only [cons_append, former]
      rw [ih (htail nofun)]

/-- The commands of a log are split at the last one of the first `n`. -/
theorem former_split {a m n : Nat} (h : places log = List.range' a m) (hn : a < n) (hm : n ≤ a + m) :
    ∃ rest, log = former n log ++ rest ∧ places (former n log) = List.range' a (n - a) ∧
      places rest = List.range' n (a + m - n) := by
  induction log generalizing a m with
  | nil =>
    cases m with
    | zero => omega
    | succ m => cases h
  | cons e log ih =>
    have hskip : e.place? = none → former n (e :: log) = e :: former n log →
        ∃ rest, e :: log = former n (e :: log) ++ rest ∧ places (former n (e :: log)) = List.range' a (n - a) ∧
          places rest = List.range' n (a + m - n) := by
      intro hplace hformer
      have hlog : places log = List.range' a m := by
        rw [← h, places, places, filterMap_cons_none hplace]
      obtain ⟨rest, hsplit, hplaces, hrest⟩ := ih hlog hn hm
      refine ⟨rest, ?_, ?_, hrest⟩
      · rw [hformer, cons_append, ← hsplit]
      · rw [hformer, ← hplaces, places, places, filterMap_cons_none hplace]
    cases e with
    | cmd i f =>
      cases m with
      | zero => cases h
      | succ m =>
        have hcons : i :: places log = a :: List.range' (a + 1) m := h
        obtain ⟨rfl, hlog⟩ := List.cons.inj hcons
        by_cases hi : i + 1 = n
        · refine ⟨log, ?_, ?_, ?_⟩
          · simp only [former, if_pos hi, singleton_append]
          · rw [former]
            simp only [if_pos hi]
            rw [show n - i = 1 by omega]
            rfl
          · rw [hlog, hi, show i + (m + 1) - n = m by omega]
        · obtain ⟨rest, hsplit, hplaces, hrest⟩ := ih hlog (by omega) (by omega)
          have hformer : former n (.cmd i f :: log) = .cmd i f :: former n log := by
            rw [former]
            simp only [if_neg hi]
          refine ⟨rest, ?_, ?_, ?_⟩
          · rw [hformer, cons_append, ← hsplit]
          · rw [hformer]
            show i :: places (former n log) = _
            rw [hplaces, show n - i = (n - (i + 1)) + 1 by omega]
            rfl
          · rw [hrest, show i + 1 + m - n = i + (m + 1) - n by omega]
    | other f | read k | write k f => exact hskip rfl rfl

/-! ## The invariant -/

/-- The client and the worker count alike. -/
structure LinkOk (l : Link M) : Prop where
  sent : l.cmdsSent = l.sent.length
  executed : l.connExecuted = l.handled
  behind : l.handled ≤ l.sent.length
  hello : ∀ i, l.sent[i]? = some .hello → i = 0

/-- The read of a pull in the log of its source: behind the commands that the fence covers and, if the call has returned, in
front of those that were sent later. -/
def ReadAt (start : M) (log : List (WorkerEvent M)) (k : Nat) (p : Pull M V) (v : V) : Prop :=
  ∃ before after, log = before ++ .read k :: after ∧ v = p.spec.get (memAfter start before) ∧
    p.fence ≤ (places before).length ∧ ∀ b, p.back = some b → (places before).length ≤ b

/-- The number of requests before the one for a pull. -/
def seqOf (s : Net M V) (k : Nat) : Nat := (s.pulls[k]?.map Pull.seq).getD 0

structure FenceCore (start : Nat → M) (s : Net M V) : Prop where
  links : ∀ w, LinkOk (s.link w)
  peers : ∀ d w, LinkOk (s.peer d w)
  mem : ∀ w, s.mem w = memAfter (start w) (s.log w)
  inLog : ∀ w, places (s.log w) = List.range (s.link w).handled
  fence : ∀ (k : Nat) (p : Pull M V), s.pulls[k]? = some p → 1 ≤ p.fence ∧ p.fence ≤ (s.link p.spec.src).sent.length
  values : ∀ (k : Nat) (p : Pull M V) v, s.pulls[k]? = some p → p.value = some v →
    ReadAt (start p.spec.src) (s.log p.spec.src) k p v
  backs : ∀ (k : Nat) (p : Pull M V) b, s.pulls[k]? = some p → p.back = some b → ∃ r, p.stage = .answered r
  requested : ∀ (w i k : Nat), (s.link w).sent[i]? = some (LinkCmd.pull k) → s.seqOf k < s.requests ∧
    ∃ p, s.pulls[k]? = some p ∧ p.stage ≠ .captured
  inOrder : ∀ (w i j k k' : Nat), j < i → (s.link w).sent[i]? = some (LinkCmd.pull k) →
    (s.link w).sent[j]? = some (LinkCmd.pull k') → s.seqOf k' < s.seqOf k
  covered : ∀ (k : Nat) (p : Pull M V) (j k' : Nat), s.pulls[k]? = some p → p.stage ≠ .captured → j < p.fence →
    (s.link p.spec.src).sent[j]? = some (LinkCmd.pull k') → s.seqOf k' < s.seqOf k
  ready : ∀ call ∈ s.calls, ∀ x ∈ call.todo, s.Ready x.src
  calls : ∀ call ∈ s.calls, ∀ k ∈ call.pulls, k ∈ call.captured ∨ k ∈ call.inFlight ∨
    ∃ (p : Pull M V) (r : Option V), s.pulls[k]? = some p ∧ p.stage = .answered r

/-- A read in the log is of a pull that has a value. -/
structure FenceInv (start : Nat → M) (s : Net M V) : Prop extends FenceCore start s where
  reads : ∀ w k, .read k ∈ s.log w → ∃ p v, s.pulls[k]? = some p ∧ p.spec.src = w ∧ p.value = some v

variable {start : Nat → M} {s : Net M V} {c : LinkCmd M} {l : Link M} {k : Nat} {p : Pull M V}
  {stage : PullStage V} {a : NetAction M V} {s' : Net M V}

theorem LinkOk.push (h : LinkOk l) (hc : c = .hello → l.sent = []) : LinkOk (l.push c) where
  sent := by
    show l.cmdsSent + 1 = (l.sent ++ [c]).length
    rw [h.sent, length_append, length_singleton]
  executed := h.executed
  behind := by
    show l.handled ≤ (l.sent ++ [c]).length
    rw [length_append]
    exact Nat.le_trans h.behind (Nat.le_add_right _ _)
  hello := by
    intro i hi
    have hi' : (l.sent ++ [c])[i]? = some .hello := hi
    rcases Nat.lt_or_ge i l.sent.length with hlt | hge
    · rw [getElem?_append_left hlt] at hi'
      exact h.hello i hi'
    · have hlt := (List.getElem?_eq_some_iff.mp hi').1
      rw [length_append, length_singleton] at hlt
      obtain rfl : i = l.sent.length := by omega
      rw [getElem?_concat_length] at hi'
      rw [hc (some.inj hi')]
      rfl

theorem LinkOk.started (h : LinkOk l) (hnext : l.next = some .hello) : LinkOk l.started where
  sent := h.sent
  executed := by
    show 1 = l.handled + 1
    rw [h.hello l.handled hnext]
  behind := (List.getElem?_eq_some_iff.mp hnext).1
  hello := h.hello

theorem LinkOk.done (h : LinkOk l) (hnext : l.next = some c) : LinkOk l.executed where
  sent := h.sent
  executed := congrArg (· + 1) h.executed
  behind := (List.getElem?_eq_some_iff.mp hnext).1
  hello := h.hello

theorem ReadAt.grow {m : M} {v : V} (h : ReadAt m log k p v) (e : WorkerEvent M) : ReadAt m (log ++ [e]) k p v := by
  obtain ⟨before, after, hlog, hrest⟩ := h
  refine ⟨before, after ++ [e], ?_, hrest⟩
  rw [hlog, append_assoc, cons_append]

/-! ### What one thing changes -/

/-- A link of the coordinator after a command. -/
theorem push_link (s : Net M V) (w : Nat) (c : LinkCmd M) (w' : Nat) :
    ((s.push w c).link w').sent = (s.link w').sent ++ (if w' = w then [c] else []) ∧
      ((s.push w c).link w').handled = (s.link w').handled := by
  have hlink : (s.push w c).link w' = if w' = w then (s.link w).push c else s.link w' :=
    Function.update_apply s.link w _ w'
  rw [hlink]
  split
  · subst w'
    exact ⟨rfl, rfl⟩
  · exact ⟨(append_nil _).symm, rfl⟩

theorem sent_push {w w' i : Nat} {x : LinkCmd M} (h : ((s.push w c).link w').sent[i]? = some x) :
    (s.link w').sent[i]? = some x ∨ w' = w ∧ i = (s.link w').sent.length ∧ x = c := by
  rw [(push_link s w c w').1] at h
  rcases Nat.lt_or_ge i (s.link w').sent.length with hlt | hge
  · rw [getElem?_append_left hlt] at h
    exact .inl h
  · rw [getElem?_append_right hge] at h
    split at h
    · have hlt := (List.getElem?_eq_some_iff.mp h).1
      obtain hi : i = (s.link w').sent.length := by
        rw [length_singleton] at hlt
        omega
      subst hi
      rw [Nat.sub_self] at h
      exact .inr ⟨‹_›, rfl, (some.inj h).symm⟩
    · cases h

/-- A command that is no pull goes out. -/
theorem FenceInv.push (h : FenceInv start s) {w : Nat} (hello : c = .hello → (s.link w).sent = [])
    (hpull : ∀ k, c ≠ .pull k) : FenceInv start (s.push w c) where
  links := by
    intro w'
    show LinkOk (update s.link w _ w')
    rw [Function.update_apply]
    split
    · exact (h.links w).push hello
    · exact h.links w'
  peers := h.peers
  mem := h.mem
  inLog := by
    intro w'
    rw [(push_link s w c w').2]
    exact h.inLog w'
  fence := by
    intro k p hp
    rw [(push_link s w c p.spec.src).1, length_append]
    exact ⟨(h.fence k p hp).1, Nat.le_trans (h.fence k p hp).2 (Nat.le_add_right _ _)⟩
  values := h.values
  reads := h.reads
  backs := h.backs
  requested := by
    intro w' i k hi
    rcases sent_push hi with hi | ⟨_, _, hc⟩
    · exact h.requested w' i k hi
    · exact absurd hc.symm (hpull k)
  inOrder := by
    intro w' i j k k' hji hi hj
    rcases sent_push hi with hi | ⟨_, _, hc⟩
    · rcases sent_push hj with hj | ⟨_, _, hc⟩
      · exact h.inOrder w' i j k k' hji hi hj
      · exact absurd hc.symm (hpull k')
    · exact absurd hc.symm (hpull k)
  covered := by
    intro k p j k' hp hstage hj hjk
    rcases sent_push hjk with hjk | ⟨_, _, hc⟩
    · exact h.covered k p j k' hp hstage hj hjk
    · exact absurd hc.symm (hpull k')
  ready := by
    intro call hcall x hx
    show 1 ≤ ((s.push w c).link x.src).handled
    rw [(push_link s w c x.src).2]
    exact h.ready call hcall x hx
  calls := h.calls

theorem happen_log (s : Net M V) (w : Nat) (e : WorkerEvent M) (w' : Nat) :
    (s.happen w e).log w' = s.log w' ++ if w' = w then [e] else [] := by
  show update s.log w _ w' = _
  rw [Function.update_apply]
  split
  · subst w'
    rfl
  · exact (append_nil _).symm

/-- Something happens to a worker, whose link `l` counts the command if it is the end of one. -/
theorem FenceCore.logged (h : FenceCore start s) (w : Nat) (e : WorkerEvent M) (hl : LinkOk l)
    (hsent : l.sent = (s.link w).sent)
    (hhandled : List.range l.handled = List.range (s.link w).handled ++ places [e]) :
    FenceCore start { s.happen w e with link := update s.link w l } := by
  have hlog := happen_log s w e
  have hle : (s.link w).handled ≤ l.handled := by
    have hlen := congrArg List.length hhandled
    rw [length_append, length_range, length_range] at hlen
    omega
  have hlink : ∀ w', (update s.link w l w').sent = (s.link w').sent ∧
      (s.link w').handled ≤ (update s.link w l w').handled := by
    intro w'
    rw [Function.update_apply]
    split
    · subst w'
      exact ⟨hsent, hle⟩
    · exact ⟨rfl, Nat.le_refl _⟩
  exact
    { h with
      links := by
        intro w'
        show LinkOk (update s.link w l w')
        rw [Function.update_apply]
        split
        · exact hl
        · exact h.links w'
      mem := by
        intro w'
        show update s.mem w _ w' = memAfter _ ((s.happen w e).log w')
        rw [hlog, Function.update_apply]
        split
        · subst w'
          rw [h.mem w, memAfter_append]
          rfl
        · rw [append_nil]
          exact h.mem w'
      inLog := by
        intro w'
        show places ((s.happen w e).log w') = List.range (update s.link w l w').handled
        rw [hlog, places_append, h.inLog w', Function.update_apply]
        split
        · subst w'
          exact hhandled.symm
        · exact append_nil _
      fence := by
        intro k p hp
        show _ ∧ _ ≤ (update s.link w l p.spec.src).sent.length
        rw [(hlink p.spec.src).1]
        exact h.fence k p hp
      values := by
        intro k p v hp hv
        show ReadAt _ ((s.happen w e).log p.spec.src) k p v
        rw [hlog]
        split
        · exact (h.values k p v hp hv).grow e
        · rw [append_nil]
          exact h.values k p v hp hv
      requested := fun w' i k hi => h.requested w' i k ((hlink w').1 ▸ hi)
      inOrder := fun w' i j k k' hji hi hj => h.inOrder w' i j k k' hji ((hlink w').1 ▸ hi) ((hlink w').1 ▸ hj)
      covered := fun k p j k' hp hstage hj hjk => h.covered k p j k' hp hstage hj ((hlink p.spec.src).1 ▸ hjk)
      ready := fun call hcall x hx => Nat.le_trans (h.ready call hcall x hx) (hlink x.src).2 }

theorem FenceInv.logged (h : FenceInv start s) (w : Nat) {e : WorkerEvent M} (hread : ∀ k, e ≠ .read k) (hl : LinkOk l)
    (hsent : l.sent = (s.link w).sent)
    (hhandled : List.range l.handled = List.range (s.link w).handled ++ places [e]) :
    FenceInv start { s.happen w e with link := update s.link w l } where
  toFenceCore := h.toFenceCore.logged w e hl hsent hhandled
  reads := by
    intro w' k hk
    change .read k ∈ (s.happen w e).log w' at hk
    rw [happen_log, List.mem_append] at hk
    rcases hk with hk | hk
    · exact h.reads w' k hk
    · split at hk
      · exact absurd (mem_singleton.mp hk).symm (hread k)
      · cases hk

/-- Something happens to a worker that is not the end of a command of the coordinator. -/
theorem FenceCore.happen (h : FenceCore start s) (w : Nat) {e : WorkerEvent M} (hplace : places [e] = []) :
    FenceCore start (s.happen w e) := by
  have hlogged := h.logged w e (h.links w) rfl (by rw [hplace, append_nil])
  rw [Function.update_eq_self] at hlogged
  exact hlogged

theorem FenceInv.happen (h : FenceInv start s) (w : Nat) {e : WorkerEvent M} (hplace : places [e] = [])
    (hread : ∀ k, e ≠ .read k) : FenceInv start (s.happen w e) := by
  have hlogged := h.logged w hread (h.links w) rfl (by rw [hplace, append_nil])
  rw [Function.update_eq_self] at hlogged
  exact hlogged

/-- A worker is done with the command that it is at. -/
theorem FenceInv.finished (h : FenceInv start s) {w : Nat} (f : M → M) (hl : LinkOk l)
    (hsent : l.sent = (s.link w).sent) (hhandled : l.handled = (s.link w).handled + 1) :
    FenceInv start (s.finished w l f) :=
  h.logged w nofun hl hsent (by rw [hhandled, range_succ]; rfl)

/-- The connections between workers count alike. -/
theorem FenceInv.withPeers (h : FenceInv start s) {peer : Nat → Nat → Link M} (hpeer : ∀ d w, LinkOk (peer d w)) :
    FenceInv start { s with peer := peer } :=
  { h with
    peers := hpeer }

theorem FenceInv.setPeer (h : FenceInv start s) (d w : Nat) (hl : LinkOk l) : FenceInv start (s.setPeer d w l) := by
  refine h.withPeers fun d' w' => ?_
  rw [Function.update_apply]
  split
  · rw [Function.update_apply]
    split
    · exact hl
    · exact h.peers d w'
  · exact h.peers d' w'

/-- The placements that wait are not part of it, and neither are calls that are as far. -/
theorem FenceInv.withCalls (h : FenceInv start s) (pending : Nat → List (M → M)) {calls : List (CopyCall M V)}
    (hready : ∀ call ∈ calls, ∀ x ∈ call.todo, s.Ready x.src)
    (hcalls : ∀ call ∈ calls, ∀ k ∈ call.pulls, k ∈ call.captured ∨ k ∈ call.inFlight ∨
      ∃ (p : Pull M V) (r : Option V), s.pulls[k]? = some p ∧ p.stage = .answered r) :
    FenceInv start { s with pending := pending, calls := calls } :=
  { h with
    ready := hready
    calls := hcalls }

/-! ### The stages of a pull -/

theorem pulls_editPull (s : Net M V) (k k' : Nat) (f : Pull M V → Pull M V) :
    (s.editPull k f).pulls[k']? = if k = k' then s.pulls[k']?.map f else s.pulls[k']? := by
  show (s.pulls.modify k f)[k']? = _
  rw [getElem?_modify]
  split
  · rfl
  · exact congrFun Option.map_id _

/-- The pulls after a stage: the one at it, and the others as they were. -/
theorem pulls_setStage {k' : Nat} {q : Pull M V} (hp : s.pulls[k]? = some p)
    (hq : (s.setStage k stage).pulls[k']? = some q) :
    k' = k ∧ q = { p with stage := stage } ∨ k' ≠ k ∧ s.pulls[k']? = some q := by
  rw [setStage, pulls_editPull] at hq
  split at hq
  · subst k'
    rw [hp] at hq
    exact .inl ⟨rfl, (some.inj hq).symm⟩
  · exact .inr ⟨fun hk => ‹¬ k = k'› hk.symm, hq⟩

theorem seqOf_setStage (k k' : Nat) (stage : PullStage V) : (s.setStage k stage).seqOf k' = s.seqOf k' := by
  rw [seqOf, seqOf, setStage, pulls_editPull]
  split
  · rw [Option.map_map]
    rfl
  · rfl

/-- A pull that is not answered goes on, and what it has received was read where it should. -/
theorem FenceCore.setStage (h : FenceCore start s) (hp : s.pulls[k]? = some p)
    (hopen : ∀ r, p.stage ≠ .answered r) (hsent : p.stage ≠ .captured) (hstage : stage ≠ .captured)
    (hvalue : ∀ v, { p with stage := stage }.value = some v →
      ReadAt (start p.spec.src) (s.log p.spec.src) k { p with stage := stage } v) :
    FenceCore start (s.setStage k stage) where
  links := h.links
  peers := h.peers
  mem := h.mem
  inLog := h.inLog
  fence := by
    intro k' q hq
    rcases pulls_setStage hp hq with ⟨rfl, rfl⟩ | ⟨_, hq⟩
    · exact h.fence _ p hp
    · exact h.fence k' q hq
  values := by
    intro k' q v hq hv
    rcases pulls_setStage hp hq with ⟨rfl, rfl⟩ | ⟨_, hq⟩
    · exact hvalue v hv
    · exact h.values k' q v hq hv
  backs := by
    intro k' q b hq hb
    rcases pulls_setStage hp hq with ⟨rfl, rfl⟩ | ⟨_, hq⟩
    · obtain ⟨r, hr⟩ := h.backs _ p b hp hb
      exact absurd hr (hopen r)
    · exact h.backs k' q b hq hb
  requested := by
    intro w i k' hi
    obtain ⟨hseq, q, hq, hqsent⟩ := h.requested w i k' hi
    rw [seqOf_setStage]
    refine ⟨hseq, ?_⟩
    rw [Net.setStage, pulls_editPull]
    split
    · subst k'
      exact ⟨_, by rw [hp]; rfl, hstage⟩
    · exact ⟨q, hq, hqsent⟩
  inOrder := by
    intro w i j k' k'' hji hi hj
    rw [seqOf_setStage, seqOf_setStage]
    exact h.inOrder w i j k' k'' hji hi hj
  covered := by
    intro k' q j k'' hq hqsent hj hjk
    rw [seqOf_setStage, seqOf_setStage]
    rcases pulls_setStage hp hq with ⟨rfl, rfl⟩ | ⟨_, hq⟩
    · exact h.covered _ p j k'' hp hsent hj hjk
    · exact h.covered k' q j k'' hq hqsent hj hjk
  ready := h.ready
  calls := by
    intro call hcall k' hk'
    rcases h.calls call hcall k' hk' with hc | hf | ⟨q, r, hq, hr⟩
    · exact .inl hc
    · exact .inr (.inl hf)
    · refine .inr (.inr ⟨q, r, ?_, hr⟩)
      rw [Net.setStage, pulls_editPull, if_neg]
      · exact hq
      · rintro rfl
        rw [hp] at hq
        obtain rfl := some.inj hq
        exact hopen r hr

/-- It keeps the value that it had. -/
theorem FenceInv.setStage (h : FenceInv start s) (hp : s.pulls[k]? = some p)
    (hopen : ∀ r, p.stage ≠ .answered r) (hsent : p.stage ≠ .captured) (hstage : stage ≠ .captured)
    (hvalue : { p with stage := stage }.value = p.value) : FenceInv start (s.setStage k stage) where
  toFenceCore := h.toFenceCore.setStage hp hopen hsent hstage fun v hv => h.values k p v hp (hvalue.symm.trans hv)
  reads := by
    intro w k' hk'
    obtain ⟨q, v, hq, hw, hv⟩ := h.reads w k' hk'
    by_cases hk : k = k'
    · subst hk
      rw [hp] at hq
      obtain rfl := some.inj hq
      refine ⟨{ p with stage := stage }, v, ?_, hw, hvalue.trans hv⟩
      rw [Net.setStage, pulls_editPull, if_pos rfl, hp]
      rfl
    · refine ⟨q, v, ?_, hw, hv⟩
      rw [Net.setStage, pulls_editPull, if_neg hk]
      exact hq

theorem FenceInv.read (h : FenceInv start s) (hp : s.pulls[k]? = some p) (hasked : p.stage = .asked)
    (hfence : p.fence ≤ (s.link p.spec.src).handled) :
    FenceInv start ((s.setStage k (.fetched (p.spec.get (s.mem p.spec.src)))).happen p.spec.src (.read k)) where
  toFenceCore := by
    have hread : FenceCore start (s.happen p.spec.src (.read k)) := h.toFenceCore.happen p.spec.src rfl
    have hback : p.back = none := by
      cases hb : p.back with
      | none => rfl
      | some b =>
        obtain ⟨r, hr⟩ := h.backs k p b hp hb
        rw [hasked] at hr
        cases hr
    refine hread.setStage hp (by rw [hasked]; exact nofun) (by rw [hasked]; exact nofun) nofun fun v hv => ?_
    refine ⟨s.log p.spec.src, [], ?_, ?_, ?_, ?_⟩
    · rw [happen_log, if_pos rfl]
    · rw [← h.mem p.spec.src]
      exact (some.inj hv).symm
    · rw [h.inLog, length_range]
      exact hfence
    · intro b hb
      rw [show p.back = some b from hb] at hback
      cases hback
  reads := by
    intro w k' hk'
    rw [happen_log, List.mem_append] at hk'
    have hpull : (s.setStage k (.fetched (p.spec.get (s.mem p.spec.src)))).pulls[k]? =
        some { p with stage := .fetched (p.spec.get (s.mem p.spec.src)) } := by
      rw [Net.setStage, pulls_editPull, if_pos rfl, hp]
      rfl
    rcases hk' with hk' | hk'
    · obtain ⟨q, v, hq, hw, hv⟩ := h.reads w k' hk'
      by_cases hk : k = k'
      · subst hk
        rw [hp] at hq
        obtain rfl := some.inj hq
        exact ⟨_, _, hpull, hw, rfl⟩
      · refine ⟨q, v, ?_, hw, hv⟩
        show (s.setStage k _).pulls[k']? = some q
        rw [Net.setStage, pulls_editPull, if_neg hk]
        exact hq
    · split at hk'
      · obtain rfl : k' = k := by
          have := mem_singleton.mp hk'
          cases this
          rfl
        exact ⟨_, _, hpull, ‹w = p.spec.src›.symm, rfl⟩
      · cases hk'

/-! ### Copy calls -/

def newPull (s : Net M V) (x : PullSpec M V) : Pull M V := { spec := x, fence := (s.link x.src).cmdsSent }

theorem pulls_capture {x : PullSpec M V} (hp : (s.pulls ++ [s.newPull x])[k]? = some p) :
    s.pulls[k]? = some p ∨ p = s.newPull x := by
  rcases Nat.lt_or_ge k s.pulls.length with hlt | hge
  · rw [getElem?_append_left hlt] at hp
    exact .inl hp
  · rw [getElem?_append_right hge] at hp
    exact .inr (mem_singleton.mp (mem_of_getElem? hp))

theorem pulls_kept (hp : s.pulls[k]? = some p) (q : Pull M V) : (s.pulls ++ [q])[k]? = some p := by
  rw [getElem?_append_left (List.getElem?_eq_some_iff.mp hp).1]
  exact hp

theorem FenceInv.capture (h : FenceInv start s) {x : PullSpec M V} (hready : s.Ready x.src) :
    FenceInv start { s with pulls := s.pulls ++ [s.newPull x] } := by
  have hseq : ∀ (k : Nat) (p : Pull M V), s.pulls[k]? = some p →
      seqOf { s with pulls := s.pulls ++ [s.newPull x] } k = s.seqOf k := by
    intro k p hp
    rw [seqOf, seqOf, hp, pulls_kept hp]
  exact
    { h with
      fence := by
        intro k p hp
        rcases pulls_capture hp with hp | rfl
        · exact h.fence k p hp
        · have hlink := h.links x.src
          show 1 ≤ (s.link x.src).cmdsSent ∧ (s.link x.src).cmdsSent ≤ (s.link x.src).sent.length
          rw [hlink.sent]
          exact ⟨Nat.le_trans hready hlink.behind, Nat.le_refl _⟩
      values := by
        intro k p v hp hv
        rcases pulls_capture hp with hp | rfl
        · exact h.values k p v hp hv
        · cases hv
      reads := by
        intro w k hk
        obtain ⟨p, v, hp, hrest⟩ := h.reads w k hk
        exact ⟨p, v, pulls_kept hp _, hrest⟩
      backs := by
        intro k p b hp hb
        rcases pulls_capture hp with hp | rfl
        · exact h.backs k p b hp hb
        · cases hb
      requested := by
        intro w i k hi
        obtain ⟨hlt, p, hp, hstage⟩ := h.requested w i k hi
        rw [hseq k p hp]
        exact ⟨hlt, p, pulls_kept hp _, hstage⟩
      inOrder := by
        intro w i j k k' hji hi hj
        obtain ⟨_, p, hp, _⟩ := h.requested w i k hi
        obtain ⟨_, p', hp', _⟩ := h.requested w j k' hj
        rw [hseq k p hp, hseq k' p' hp']
        exact h.inOrder w i j k k' hji hi hj
      covered := by
        intro k p j k' hp hstage hj hjk
        obtain ⟨_, p', hp', _⟩ := h.requested p.spec.src j k' hjk
        rw [hseq k' p' hp']
        rcases pulls_capture hp with hp | rfl
        · rw [hseq k p hp]
          exact h.covered k p j k' hp hstage hj hjk
        · exact absurd rfl hstage
      calls := by
        intro call hcall k hk
        rcases h.calls call hcall k hk with hc | hf | ⟨p, r, hp, hr⟩
        · exact .inl hc
        · exact .inr (.inl hf)
        · exact .inr (.inr ⟨p, r, pulls_kept hp _, hr⟩) }

/-- The pulls after a request: the one that was sent, and the others as they were. -/
theorem pulls_sendRequest {k' : Nat} {q : Pull M V} (hp : s.pulls[k]? = some p)
    (hq : (s.sendRequest k p).pulls[k']? = some q) :
    k' = k ∧ q = { p with stage := .requested, seq := s.requests } ∨ k' ≠ k ∧ s.pulls[k']? = some q := by
  change ((s.push p.spec.dst (.pull k)).editPull k _).pulls[k']? = some q at hq
  rw [pulls_editPull] at hq
  split at hq
  · subst k'
    rw [show (s.push p.spec.dst (.pull k)).pulls[k]? = some p from hp] at hq
    exact .inl ⟨rfl, (some.inj hq).symm⟩
  · exact .inr ⟨fun hk => ‹¬ k = k'› hk.symm, hq⟩

theorem pulls_sendRequest_ne {k' : Nat} {q : Pull M V} (hk : k ≠ k') (hq : s.pulls[k']? = some q) :
    (s.sendRequest k p).pulls[k']? = some q := by
  show ((s.push p.spec.dst (.pull k)).editPull k _).pulls[k']? = some q
  rw [pulls_editPull, if_neg hk]
  exact hq

theorem pulls_sendRequest_self (hp : s.pulls[k]? = some p) :
    (s.sendRequest k p).pulls[k]? = some { p with stage := .requested, seq := s.requests } := by
  show ((s.push p.spec.dst (.pull k)).editPull k _).pulls[k]? = _
  rw [pulls_editPull, if_pos rfl]
  show s.pulls[k]?.map _ = _
  rw [hp]
  rfl

theorem FenceInv.sendRequest (h : FenceInv start s) (hp : s.pulls[k]? = some p)
    (hcaptured : p.stage = .captured) : FenceInv start (s.sendRequest k p) := by
  have hself : (s.sendRequest k p).seqOf k = s.requests := by
    rw [seqOf, pulls_sendRequest_self hp]
    rfl
  have hother : ∀ k', k ≠ k' → (s.sendRequest k p).seqOf k' = s.seqOf k' := by
    intro k' hk
    cases hq : s.pulls[k']? with
    | some q => rw [seqOf, seqOf, hq, pulls_sendRequest_ne hk hq]
    | none =>
      have hnone : (s.sendRequest k p).pulls[k']? = none := by
        show ((s.push p.spec.dst (.pull k)).editPull k _).pulls[k']? = none
        rw [pulls_editPull, if_neg hk]
        exact hq
      rw [seqOf, seqOf, hq, hnone]
  -- what was requested before is another pull
  have hbefore : ∀ (w i k' : Nat), (s.link w).sent[i]? = some (LinkCmd.pull k') →
      k ≠ k' ∧ (s.sendRequest k p).seqOf k' < s.requests ∧ ∃ q, s.pulls[k']? = some q ∧ q.stage ≠ .captured := by
    intro w i k' hi
    obtain ⟨hlt, q, hq, hstage⟩ := h.requested w i k' hi
    have hk : k ≠ k' := by
      rintro rfl
      rw [hp] at hq
      obtain rfl := some.inj hq
      exact hstage hcaptured
    exact ⟨hk, by rw [hother k' hk]; exact hlt, q, hq, hstage⟩
  have hsent : ∀ {w i : Nat} {c : LinkCmd M}, ((s.sendRequest k p).link w).sent[i]? = some c →
      (s.link w).sent[i]? = some c ∨ w = p.spec.dst ∧ i = (s.link w).sent.length ∧ c = .pull k := fun hi => sent_push hi
  exact
    { links := by
        intro w
        show LinkOk (update s.link p.spec.dst _ w)
        rw [Function.update_apply]
        split
        · exact (h.links p.spec.dst).push nofun
        · exact h.links w
      peers := h.peers
      mem := h.mem
      inLog := by
        intro w
        show _ = List.range ((s.push p.spec.dst (.pull k)).link w).handled
        rw [(push_link s p.spec.dst (.pull k) w).2]
        exact h.inLog w
      fence := by
        intro k' q hq
        show 1 ≤ q.fence ∧ q.fence ≤ ((s.push p.spec.dst (.pull k)).link q.spec.src).sent.length
        rw [(push_link s p.spec.dst (.pull k) q.spec.src).1, length_append]
        have hfence : 1 ≤ q.fence ∧ q.fence ≤ (s.link q.spec.src).sent.length := by
          rcases pulls_sendRequest hp hq with ⟨rfl, rfl⟩ | ⟨_, hq⟩
          · exact h.fence _ p hp
          · exact h.fence k' q hq
        exact ⟨hfence.1, Nat.le_trans hfence.2 (Nat.le_add_right _ _)⟩
      values := by
        intro k' q v hq hv
        rcases pulls_sendRequest hp hq with ⟨rfl, rfl⟩ | ⟨_, hq⟩
        · cases hv
        · exact h.values k' q v hq hv
      reads := by
        intro w k' hk'
        obtain ⟨q, v, hq, hw, hv⟩ := h.reads w k' hk'
        have hk : k ≠ k' := by
          rintro rfl
          rw [hp] at hq
          obtain rfl := some.inj hq
          rw [Pull.value, hcaptured] at hv
          cases hv
        exact ⟨q, v, pulls_sendRequest_ne hk hq, hw, hv⟩
      backs := by
        intro k' q b hq hb
        rcases pulls_sendRequest hp hq with ⟨rfl, rfl⟩ | ⟨_, hq⟩
        · obtain ⟨r, hr⟩ := h.backs _ p b hp hb
          rw [hcaptured] at hr
          cases hr
        · exact h.backs k' q b hq hb
      requested := by
        intro w i k' hi
        rcases hsent hi with hi | ⟨_, _, hc⟩
        · obtain ⟨hk, hlt, q, hq, hstage⟩ := hbefore w i k' hi
          exact ⟨Nat.lt_succ_of_lt hlt, q, pulls_sendRequest_ne hk hq, hstage⟩
        · obtain rfl := LinkCmd.pull.inj hc
          rw [hself]
          exact ⟨Nat.lt_succ_self _, _, pulls_sendRequest_self hp, nofun⟩
      inOrder := by
        intro w i j k₁ k₂ hji hi hj
        rcases hsent hj with hj | ⟨_, rfl, _⟩
        · obtain ⟨hk₂, hlt₂, _⟩ := hbefore w j k₂ hj
          rcases hsent hi with hi | ⟨_, _, hc⟩
          · obtain ⟨hk₁, _⟩ := hbefore w i k₁ hi
            rw [hother k₁ hk₁, hother k₂ hk₂]
            exact h.inOrder w i j k₁ k₂ hji hi hj
          · obtain rfl := LinkCmd.pull.inj hc
            rw [hself]
            exact hlt₂
        · rcases hsent hi with hi | ⟨_, rfl, _⟩
          · have := (List.getElem?_eq_some_iff.mp hi).1
            omega
          · omega
      covered := by
        intro k' q j k₂ hq hstage hj hjk
        have hfence : q.fence ≤ (s.link q.spec.src).sent.length := by
          rcases pulls_sendRequest hp hq with ⟨rfl, rfl⟩ | ⟨_, hq⟩
          · exact (h.fence _ p hp).2
          · exact (h.fence k' q hq).2
        rcases hsent hjk with hjk | ⟨_, rfl, _⟩
        · obtain ⟨hk₂, hlt₂, _⟩ := hbefore q.spec.src j k₂ hjk
          rcases pulls_sendRequest hp hq with ⟨rfl, rfl⟩ | ⟨hk', hq⟩
          · rw [hself]
            exact hlt₂
          · rw [hother k' (Ne.symm hk'), hother k₂ hk₂]
            exact h.covered k' q j k₂ hq hstage hj hjk
        · omega
      ready := by
        intro call hcall x hx
        show 1 ≤ ((s.push p.spec.dst (.pull k)).link x.src).handled
        rw [(push_link s p.spec.dst (.pull k) x.src).2]
        exact h.ready call hcall x hx
      calls := by
        intro call hcall k' hk'
        rcases h.calls call hcall k' hk' with hc | hf | ⟨q, r, hq, hr⟩
        · exact .inl hc
        · exact .inr (.inl hf)
        · have hk : k ≠ k' := by
            rintro rfl
            rw [hp] at hq
            obtain rfl := some.inj hq
            rw [hcaptured] at hr
            cases hr
          exact .inr (.inr ⟨q, r, pulls_sendRequest_ne hk hq, hr⟩) }

def returned (s : Net M V) (call : CopyCall M V) (k : Nat) (p : Pull M V) : Pull M V :=
  if k ∈ call.pulls then { p with back := some (s.link p.spec.src).sent.length } else p

theorem pulls_returnCall (s : Net M V) (call : CopyCall M V) (k : Nat) :
    (s.returnCall call).pulls[k]? = s.pulls[k]?.map (s.returned call k) := getElem?_mapIdx

theorem returned_same (s : Net M V) (call : CopyCall M V) (k : Nat) (p : Pull M V) :
    (s.returned call k p).spec = p.spec ∧ (s.returned call k p).fence = p.fence ∧ (s.returned call k p).stage = p.stage ∧
      (s.returned call k p).seq = p.seq := by
  rw [returned]
  split <;> exact ⟨rfl, rfl, rfl, rfl⟩

theorem FenceInv.returnCall (h : FenceInv start s) {call : CopyCall M V}
    (hanswered : ∀ k ∈ call.pulls, ∃ (p : Pull M V) (r : Option V), s.pulls[k]? = some p ∧ p.stage = .answered r) :
    FenceInv start (s.returnCall call) := by
  have hpulls : ∀ {k : Nat} {q : Pull M V}, (s.returnCall call).pulls[k]? = some q →
      ∃ p, s.pulls[k]? = some p ∧ q = s.returned call k p := by
    intro k q hq
    rw [pulls_returnCall] at hq
    obtain ⟨p, hp, hpq⟩ := map_eq_some_iff.mp hq
    exact ⟨p, hp, hpq.symm⟩
  have hkept : ∀ {k : Nat} {p : Pull M V}, s.pulls[k]? = some p → (s.returnCall call).pulls[k]? = some (s.returned call k p) := by
    intro k p hp
    rw [pulls_returnCall, hp]
    rfl
  have hseq : ∀ k, (s.returnCall call).seqOf k = s.seqOf k := by
    intro k
    rw [seqOf, seqOf, pulls_returnCall, Option.map_map]
    congr 2
    funext p
    exact (returned_same s call k p).2.2.2
  have hvalue : ∀ (k : Nat) (p : Pull M V), (s.returned call k p).value = p.value := by
    intro k p
    rw [Pull.value, Pull.value, (returned_same s call k p).2.2.1]
  exact
    { h with
      fence := by
        intro k q hq
        obtain ⟨p, hp, rfl⟩ := hpulls hq
        rw [(returned_same s call k p).1, (returned_same s call k p).2.1]
        exact h.fence k p hp
      values := by
        intro k q v hq hv
        obtain ⟨p, hp, rfl⟩ := hpulls hq
        rw [hvalue] at hv
        obtain ⟨before, after, hlog, hread, hfence, hback⟩ := h.values k p v hp hv
        rw [(returned_same s call k p).1]
        refine ⟨before, after, hlog, ?_, ?_, ?_⟩
        · rw [(returned_same s call k p).1]
          exact hread
        · rw [(returned_same s call k p).2.1]
          exact hfence
        · intro b hb
          rw [returned] at hb
          split at hb
          · obtain rfl := some.inj hb
            have hlen : (places before).length ≤ (places (s.log p.spec.src)).length := by
              rw [hlog, places_append, length_append]
              exact Nat.le_add_right _ _
            rw [h.inLog, length_range] at hlen
            exact Nat.le_trans hlen (h.links p.spec.src).behind
          · exact hback b hb
      reads := by
        intro w k hk
        obtain ⟨p, v, hp, hw, hv⟩ := h.reads w k hk
        refine ⟨_, v, hkept hp, ?_, ?_⟩
        · rw [(returned_same s call k p).1]
          exact hw
        · rw [hvalue]
          exact hv
      backs := by
        intro k q b hq hb
        obtain ⟨p, hp, rfl⟩ := hpulls hq
        rw [(returned_same s call k p).2.2.1]
        rw [returned] at hb
        split at hb
        · obtain ⟨p', r, hp', hr⟩ := hanswered k ‹_›
          rw [hp] at hp'
          obtain rfl := some.inj hp'
          exact ⟨r, hr⟩
        · exact h.backs k p b hp hb
      requested := by
        intro w i k hi
        obtain ⟨hlt, p, hp, hstage⟩ := h.requested w i k hi
        rw [hseq]
        refine ⟨hlt, _, hkept hp, ?_⟩
        rw [(returned_same s call k p).2.2.1]
        exact hstage
      inOrder := by
        intro w i j k k' hji hi hj
        rw [hseq, hseq]
        exact h.inOrder w i j k k' hji hi hj
      covered := by
        intro k q j k' hq hstage hj hjk
        obtain ⟨p, hp, rfl⟩ := hpulls hq
        obtain ⟨hspec, hfence, hsame, _⟩ := returned_same s call k p
        rw [hfence] at hj
        rw [hspec] at hjk
        rw [hsame] at hstage
        rw [hseq, hseq]
        exact h.covered k p j k' hp hstage hj hjk
      calls := by
        intro call' hcall k hk
        rcases h.calls call' hcall k hk with hc | hf | ⟨p, r, hp, hr⟩
        · exact .inl hc
        · exact .inr (.inl hf)
        · refine .inr (.inr ⟨_, r, hkept hp, ?_⟩)
          rw [(returned_same s call k p).2.2.1]
          exact hr }

theorem FenceInv.setCall (h : FenceInv start s) (c : Nat) {call : CopyCall M V} (hready : ∀ x ∈ call.todo, s.Ready x.src)
    (hcall : ∀ k ∈ call.pulls, k ∈ call.captured ∨ k ∈ call.inFlight ∨
      ∃ (p : Pull M V) (r : Option V), s.pulls[k]? = some p ∧ p.stage = .answered r) : FenceInv start (s.setCall c call) := by
  refine h.withCalls s.pending ?_ ?_
  · intro call' hmem
    rcases mem_or_eq_of_mem_set hmem with hold | rfl
    · exact h.ready call' hold
    · exact hready
  · intro call' hmem
    rcases mem_or_eq_of_mem_set hmem with hold | rfl
    · exact h.calls call' hold
    · exact hcall

/-! ### Steps -/

theorem coordinate_inv (h : FenceInv start s) (ha : s.coordinate a = some s') : FenceInv start s' := by
  cases a with
  | connect w =>
    obtain ⟨hempty, ha⟩ := ite_none_right_eq_some.mp ha
    cases ha
    exact h.push (fun _ => List.isEmpty_iff.mp hempty) nofun
  | queue w f =>
    cases ha
    exact h.withCalls _ h.ready h.calls
  | flush w =>
    obtain ⟨_, ha⟩ := ite_none_right_eq_some.mp ha
    cases ha
    have hpush : FenceInv start (s.push w (.placements (s.pending w))) := h.push nofun nofun
    exact hpush.withCalls _ hpush.ready hpush.calls
  | send w f | inspect w =>
    obtain ⟨_, ha⟩ := ite_none_right_eq_some.mp ha
    cases ha
    exact h.push nofun nofun
  | begin copies =>
    obtain ⟨hcan, ha⟩ := ite_none_right_eq_some.mp ha
    cases ha
    refine h.withCalls s.pending ?_ ?_
    · intro call hcall
      rcases List.mem_append.mp hcall with hold | hnew
      · exact h.ready call hold
      · obtain rfl := mem_singleton.mp hnew
        exact fun x hx => (hcan.2 x hx).2.1
    · intro call hcall
      rcases List.mem_append.mp hcall with hold | hnew
      · exact h.calls call hold
      · obtain rfl := mem_singleton.mp hnew
        exact fun k hk => nomatch hk
  | capture c =>
    simp only [coordinate] at ha
    split at ha
    · rename_i call hcall
      split at ha
      · rename_i x rest htodo
        cases ha
        have hmem := mem_of_getElem? hcall
        have hready := h.ready call hmem
        rw [htodo] at hready
        have hnew := h.capture (hready x mem_cons_self)
        refine hnew.setCall c (fun y hy => hready y (mem_cons_of_mem x hy)) ?_
        intro k hk
        rcases List.mem_append.mp hk with hold | hk
        · rcases hnew.calls call hmem k hold with hc | hf | ha
          · exact .inl (mem_append_left _ hc)
          · exact .inr (.inl hf)
          · exact .inr (.inr ha)
        · exact .inl (mem_append_right _ hk)
      · cases ha
    · cases ha
  | request c k =>
    simp only [coordinate] at ha
    split at ha
    · rename_i call p hcall hp
      split at ha
      · rename_i hstage
        obtain ⟨⟨htodo, hk, _⟩, ha⟩ := ite_none_right_eq_some.mp ha
        cases ha
        have hmem := mem_of_getElem? hcall
        have hsend := h.sendRequest hp hstage
        refine hsend.setCall c (hsend.ready call hmem) ?_
        intro k' hk'
        by_cases hkk : k' = k
        · subst hkk
          exact .inr (.inl (mem_append_right _ (mem_singleton.mpr rfl)))
        · rcases hsend.calls call hmem k' hk' with hc | hf | ha
          · exact .inl ((mem_erase_of_ne hkk).mpr hc)
          · exact .inr (.inl (mem_append_left _ hf))
          · exact .inr (.inr ha)
      · cases ha
    · cases ha
  | collect c k =>
    simp only [coordinate] at ha
    split at ha
    · rename_i call p hcall hp
      split at ha
      · rename_i r hstage
        obtain ⟨_, ha⟩ := ite_none_right_eq_some.mp ha
        cases ha
        have hmem := mem_of_getElem? hcall
        refine h.setCall c (h.ready call hmem) ?_
        intro k' hk'
        by_cases hkk : k' = k
        · subst hkk
          exact .inr (.inr ⟨p, r, hp, hstage⟩)
        · rcases h.calls call hmem k' hk' with hc | hf | ha
          · exact .inl hc
          · exact .inr (.inl ((mem_erase_of_ne hkk).mpr hf))
          · exact .inr (.inr ha)
      · cases ha
    · cases ha
  | ret c =>
    simp only [coordinate] at ha
    split at ha
    · rename_i call hcall
      obtain ⟨⟨_, hcaptured, hflight, _⟩, ha⟩ := ite_none_right_eq_some.mp ha
      cases ha
      have hmem := mem_of_getElem? hcall
      have hanswered : ∀ k ∈ call.pulls, ∃ (p : Pull M V) (r : Option V), s.pulls[k]? = some p ∧ p.stage = .answered r := by
        intro k hk
        rcases h.calls call hmem k hk with hc | hf | ha
        · rw [List.isEmpty_iff.mp hcaptured] at hc
          cases hc
        · rw [List.isEmpty_iff.mp hflight] at hf
          cases hf
        · exact ha
      have hret := h.returnCall hanswered
      exact hret.setCall c (hret.ready call hmem) (hret.calls call hmem)
    · cases ha
  | _ => cases ha

theorem current_eq {d : Nat} (h : s.current d = some (k, p)) :
    (s.link d).next = some (.pull k) ∧ s.pulls[k]? = some p := by
  rw [current] at h
  split at h
  · rename_i k' hnext
    obtain ⟨q, hq, hkq⟩ := map_eq_some_iff.mp h
    cases hkq
    exact ⟨hnext, hq⟩
  · cases h

theorem work_inv (h : FenceInv start s) (ha : s.work a = some s') : FenceInv start s' := by
  cases a with
  | serve w =>
    have hlink := h.links w
    simp only [work] at ha
    split at ha
    · rename_i hnext
      cases ha
      exact h.finished id (hlink.started hnext) rfl rfl
    · rename_i f hnext
      cases ha
      exact h.finished f (hlink.done hnext) rfl rfl
    · rename_i hnext
      cases ha
      exact h.finished id (hlink.done hnext) rfl rfl
    · rename_i fs hnext
      cases ha
      exact h.finished _ (hlink.done hnext) rfl rfl
    · cases ha
  | connectPeer d w =>
    obtain ⟨hempty, ha⟩ := ite_none_right_eq_some.mp ha
    cases ha
    exact h.setPeer d w ((h.peers d w).push fun _ => List.isEmpty_iff.mp hempty)
  | servePeer d w =>
    simp only [work] at ha
    split at ha
    · rename_i hnext
      cases ha
      exact h.setPeer d w ((h.peers d w).started hnext)
    · cases ha
  | ask d =>
    simp only [work] at ha
    split at ha
    · rename_i k p hcur
      split at ha
      · rename_i hstage
        obtain ⟨_, ha⟩ := ite_none_right_eq_some.mp ha
        cases ha
        have hpeer := h.setPeer d p.spec.src ((h.peers d p.spec.src).push (c := .fenced k) nofun)
        exact hpeer.setStage (current_eq hcur).2 (by rw [hstage]; exact nofun) (by rw [hstage]; exact nofun) nofun
          (by rw [Pull.value, Pull.value, hstage])
      · cases ha
    · cases ha
  | refuse d =>
    simp only [work] at ha
    split at ha
    · rename_i k p hcur
      split at ha
      · rename_i hstage
        cases ha
        exact h.setStage (current_eq hcur).2 (by rw [hstage]; exact nofun) (by rw [hstage]; exact nofun) nofun
          (by rw [Pull.value, Pull.value, hstage])
      · cases ha
    · cases ha
  | read d w =>
    simp only [work] at ha
    split at ha
    · rename_i k hnext
      split at ha
      · rename_i p hp
        split at ha
        · rename_i hstage
          obtain ⟨⟨rfl, hfence⟩, ha⟩ := ite_none_right_eq_some.mp ha
          cases ha
          rw [(h.links p.spec.src).executed] at hfence
          exact (h.read hp hstage hfence).setPeer d p.spec.src ((h.peers d p.spec.src).done hnext)
        · cases ha
      · cases ha
    · cases ha
  | store d =>
    simp only [work] at ha
    split at ha
    · rename_i k p hcur
      split at ha
      · rename_i v hstage
        cases ha
        have hstored : FenceInv start (s.setStage k (.stored v)) := h.setStage (current_eq hcur).2
          (by rw [hstage]; exact nofun) (by rw [hstage]; exact nofun) nofun (by rw [Pull.value, Pull.value, hstage])
        exact hstored.happen d rfl nofun
      · cases ha
    · cases ha
  | answer d =>
    simp only [work] at ha
    split at ha
    · rename_i k p hcur
      split at ha
      · rename_i v hstage
        cases ha
        exact h.setStage (current_eq hcur).2 (by rw [hstage]; exact nofun) (by rw [hstage]; exact nofun) nofun
          (by rw [Pull.value, Pull.value, hstage])
      · rename_i hstage
        cases ha
        exact h.setStage (current_eq hcur).2 (by rw [hstage]; exact nofun) (by rw [hstage]; exact nofun) nofun
          (by rw [Pull.value, Pull.value, hstage])
      · cases ha
    · cases ha
  | finish d =>
    simp only [work] at ha
    split at ha
    · rename_i k p hcur
      split at ha
      · cases ha
        exact h.finished id ((h.links d).done (current_eq hcur).1) rfl rfl
      · cases ha
    · cases ha
  | other w f =>
    cases ha
    exact h.happen w rfl nofun
  | _ => cases ha

theorem step_inv (h : FenceInv start s) (ha : s.step a = some s') : FenceInv start s' := by
  rw [step] at ha
  cases hco : s.coordinate a with
  | some s₁ =>
    rw [hco] at ha
    cases ha
    exact coordinate_inv h hco
  | none =>
    rw [hco] at ha
    exact work_inv h ha

/-! ## Runs -/

/-- The coordinator and workers with these memories, before there is a connection. -/
def initial (V : Type) (start : Nat → M) : Net M V := { mem := start }

theorem initial_inv (start : Nat → M) : FenceInv start (initial V start) where
  links := fun _ => ⟨rfl, rfl, Nat.le_refl _, fun _ hi => nomatch hi⟩
  peers := fun _ _ => ⟨rfl, rfl, Nat.le_refl _, fun _ hi => nomatch hi⟩
  mem := fun _ => rfl
  inLog := fun _ => rfl
  fence := fun _ _ hp => nomatch hp
  values := fun _ _ _ hp => nomatch hp
  reads := fun _ _ hk => nomatch hk
  backs := fun _ _ _ hp => nomatch hp
  requested := fun _ _ _ hi => nomatch hi
  inOrder := fun _ _ _ _ _ _ hi => nomatch hi
  covered := fun _ _ _ _ hp => nomatch hp
  ready := fun _ hcall => nomatch hcall
  calls := fun _ hcall => nomatch hcall

theorem reaches_inv {s : Net M V} (h : Runs.Reaches step (fun _ _ => True) (initial V start) s) : FenceInv start s :=
  h.inv (fun _ _ _ hs _ ha => step_inv hs ha) (initial_inv start)

/-- A read between the commands that the fence covers and those that were sent after the call had returned. -/
theorem FenceInv.read_between (h : FenceInv start s) {v : V} (hp : s.pulls[k]? = some p)
    (hv : p.value = some v) :
    ∃ between after, s.log p.spec.src = former p.fence (s.log p.spec.src) ++ between ++ .read k :: after ∧
      (∀ i, (∃ f, .cmd i f ∈ former p.fence (s.log p.spec.src)) ↔ i < p.fence) ∧
      (∀ b, p.back = some b → ∀ i f, .cmd i f ∈ former p.fence (s.log p.spec.src) ++ between → i < b) ∧
      v = p.spec.get (memAfter (start p.spec.src) (former p.fence (s.log p.spec.src) ++ between)) := by
  obtain ⟨before, after, hlog, hread, hfence, hback⟩ := h.values k p v hp hv
  have hpos := (h.fence k p hp).1
  have hrange : places before = List.range' 0 (places before).length := by
    have hall := h.inLog p.spec.src
    rw [hlog, places_append] at hall
    have htake : places before = (List.range (s.link p.spec.src).handled).take (places before).length := by
      rw [← hall, take_left]
    have hle : (places before).length ≤ (s.link p.spec.src).handled := by
      have := congrArg List.length hall
      rw [length_append, length_range] at this
      omega
    rw [take_range, Nat.min_eq_left hle, range_eq_range'] at htake
    exact htake
  obtain ⟨between, hsplit, hfirst, hrest⟩ := former_split hrange hpos (by omega)
  have hformer : former p.fence (s.log p.spec.src) = former p.fence before := by
    rw [hlog]
    refine former_append ⟨p.fence - 1, ?_, by omega⟩ _
    rw [hrange, mem_range'_1]
    omega
  rw [hformer]
  refine ⟨between, after, ?_, ?_, ?_, ?_⟩
  · rw [← hsplit]
    exact hlog
  · intro i
    rw [← mem_places, hfirst, mem_range'_1]
    omega
  · intro b hb i f hi
    rw [← hsplit] at hi
    have hplace : i ∈ places before := mem_places.mpr ⟨f, hi⟩
    rw [hrange, mem_range'_1] at hplace
    have := hback b hb
    omega
  · rw [← hsplit]
    exact hread

/-- Requests go out one after the other, and a pull waits only for earlier ones. -/
theorem FenceInv.seqOf_lt (h : FenceInv start s) {k' : Nat} (hk : s.InFlight k)
    (hwait : s.WaitsFor k k') : s.seqOf k' < s.seqOf k := by
  obtain ⟨q, hq, _, w, i, hi⟩ := hk
  obtain ⟨_, q', hq', hstage⟩ := h.requested w i k hi
  obtain ⟨p, hp, ⟨i, j, _, hji, hi, hj⟩ | ⟨j, _, hj, hjk⟩⟩ := hwait
  · exact h.inOrder p.spec.dst i j k k' hji hi hj
  · rw [hp] at hq'
    obtain rfl := some.inj hq'
    exact h.covered k p j k' hp hstage hj hjk

/-- Of pulls in flight one waits for none of them. -/
theorem FenceInv.not_all_wait (h : FenceInv start s) {ks : List Nat} (hne : ks ≠ []) (hks : ∀ k ∈ ks, s.InFlight k) :
    ∃ k ∈ ks, ∀ k' ∈ ks, ¬ s.WaitsFor k k' := by
  obtain ⟨k, hk, hmin⟩ := ks.toFinset.exists_min_image s.seqOf (toFinset_nonempty_iff ks |>.mpr hne)
  rw [List.mem_toFinset] at hk
  refine ⟨k, hk, fun k' hk' hwait => ?_⟩
  exact absurd (h.seqOf_lt (hks k hk) hwait) (Nat.not_lt.mpr (hmin k' (List.mem_toFinset.mpr hk')))

/-- Two workers with a number each. -/
def twoWorkers : Net Nat Nat := initial Nat fun _ => 0

/-- The coordinator writes 5 on the first worker and has the second one pull it, and another client writes 9 in between. -/
def overwrittenRun : List (NetAction Nat Nat) :=
  [.connect 0, .serve 0, .connect 1, .serve 1, .connectPeer 1 0, .servePeer 1 0, .send 0 fun _ => 5,
    .begin [⟨0, 1, id, fun v _ => v⟩], .capture 0, .request 0 0, .serve 0, .other 0 fun _ => 9, .ask 1, .read 1 0]

/-- The first pull has a value that is not the one after the former commands. -/
def Overwritten (s : Net Nat Nat) : Bool :=
  match s.pulls[0]? with
  | some p => decide (p.value ≠ none ∧ p.value ≠ some (p.spec.get (memAfter 0 (former p.fence (s.log p.spec.src)))))
  | none => false

end Net

end LlamaCpp.Rpc
