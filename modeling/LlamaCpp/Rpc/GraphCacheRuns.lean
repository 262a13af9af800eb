import LlamaCpp.Rpc.GraphCache
import Mathlib.Data.List.TakeWhile

/-!
# When a remembered graph is served

A worker serves a recompute if and only if the last upload of the uid came over the same connection and fewer than 512 other
uids were served since the uid was: `Keeps`.  What a client remembers is not part of that, so a client can remember a uid
that the uploads of others have pushed out.  Whatever is served, no client gets the graph of another (`recompute_own`).

An upload is a graph that the worker can rebuild: no `create_node` of it fails.
-/

namespace LlamaCpp.Rpc

open List Option

open Function (update)

namespace GraphShare

variable {G : Type}

def lastUpload (served : List ServedCmd) (uid : Nat) : Option Conn :=
  (served.find? fun e => e.uploads && decide (e.uid = uid)).map (·.conn)

/-- The other uids that were served since a uid was. -/
def usedSince (served : List ServedCmd) (uid : Nat) : List Nat :=
  ((served.takeWhile fun e => decide (e.uid ≠ uid)).map (·.uid)).dedup

/-- The worker still has the upload of a uid over the connection of a client. -/
def Keeps (s : GraphShare G) (k uid : Nat) : Prop :=
  lastUpload s.served uid = some (s.conn k) ∧ (usedSince s.served uid).length < graphUidCacheCap

/-- The cache has the graph of a client under a uid, for its connection. -/
def Finds (graphOf : Nat → Nat → G) (s : GraphShare G) (k uid : Nat) : Prop :=
  s.byUid uid = some ⟨some (graphOf k uid), some (s.conn k)⟩

/-- A recompute is served while the worker still has the upload. -/
def Permitted (s : GraphShare G) : GraphAction → Prop
  | .serve k _ => ∀ uid rest, (s.clients k).queue = .recomputeUid uid :: rest → s.Keeps k uid
  | _ => True

/-! ### The invariant -/

/-- A connection over which no command is served any more. -/
def Dead (s : GraphShare G) (c : Conn) : Prop :=
  c.sock < (s.clients c.client).sock ∨ c.sock = (s.clients c.client).sock ∧ (s.clients c.client).closed = true

/-- The uids that were served, the last one last. -/
def uses (served : List ServedCmd) : List Nat := served.reverse.map (·.uid)

/-- The cache has the uids that were used last, with the graphs of their last uploads. -/
structure CacheOk (graphOf : Nat → Nat → G) (s : GraphShare G) : Prop where
  order : s.order = Lru.cached graphUidCacheCap (uses s.served)
  stored : ∀ uid, (s.byUid uid).isSome ↔ uid ∈ s.order
  origin : ∀ uid g, s.byUid uid = some g → ∃ c, lastUpload s.served uid = some c ∧
    (g = ⟨some (graphOf c.client uid), some c⟩ ∨ g.graph = none ∧ s.Dead c)

variable {graphOf : Nat → Nat → G} {nonempty : Nat → Nat → Bool} {s s' : GraphShare G} {k uid : Nat}

theorem uses_cons (e : ServedCmd) (served : List ServedCmd) : uses (e :: served) = uses served ++ [e.uid] := by
  simp [uses]

theorem CacheOk.nodup (h : CacheOk graphOf s) : s.order.Nodup := by
  rw [h.order]
  exact Lru.cached_nodup (by decide) _

/-- A uid that was served is in the cache if and only if fewer than 512 others were served since. -/
theorem CacheOk.mem_order_iff (h : CacheOk graphOf s) {c : Conn} (hc : lastUpload s.served uid = some c) :
    uid ∈ s.order ↔ (usedSince s.served uid).length < graphUidCacheCap := by
  have hdrop : ∃ e rest, s.served.dropWhile (fun e => decide (e.uid ≠ uid)) = e :: rest ∧ e.uid = uid := by
    obtain ⟨e, he, -⟩ := map_eq_some_iff.mp hc
    have huid : e.uid = uid := by
      have := find?_some he
      simp only [Bool.and_eq_true, decide_eq_true_eq] at this
      exact this.2
    cases hd : s.served.dropWhile (fun e => decide (e.uid ≠ uid)) with
    | nil =>
      have hall := dropWhile_eq_nil_iff.mp hd e (mem_of_find?_eq_some he)
      exact absurd huid (of_decide_eq_true hall)
    | cons e' rest =>
      have hnot := head?_dropWhile_not (fun e : ServedCmd => decide (e.uid ≠ uid)) s.served
      rw [hd] at hnot
      exact ⟨e', rest, rfl, by simpa using hnot⟩
  obtain ⟨e, rest, hrest, huid⟩ := hdrop
  have hsplit := takeWhile_append_dropWhile (p := fun e : ServedCmd => decide (e.uid ≠ uid)) (l := s.served)
  rw [hrest] at hsplit
  have huses : uses s.served = uses rest ++ uid :: uses (s.served.takeWhile fun e => decide (e.uid ≠ uid)) := by
    conv_lhs => rw [← hsplit]
    simp [uses, huid]
  have hnot : uid ∉ uses (s.served.takeWhile fun e => decide (e.uid ≠ uid)) := by
    intro hin
    obtain ⟨e', he', heq⟩ := List.mem_map.mp hin
    have := mem_takeWhile_imp (mem_reverse.mp he')
    exact of_decide_eq_true this heq
  have hlen : (uses (s.served.takeWhile fun e => decide (e.uid ≠ uid))).dedup.length =
      (usedSince s.served uid).length := by
    rw [uses, usedSince, map_reverse]
    exact (reverse_perm _).dedup.length_eq
  rw [h.order, huses, Lru.mem_cached_iff (by decide) hnot, hlen]

theorem not_dead_conn (hopen : (s.clients k).closed = false) : ¬s.Dead (s.conn k) := by
  rintro (h | ⟨-, h⟩)
  · exact absurd h (Nat.lt_irrefl _)
  · rw [show (s.clients (s.conn k).client).closed = false from hopen] at h
    cases h

/-- The cache has the graph of a live connection if and only if the worker still has the upload. -/
theorem CacheOk.finds_iff (h : CacheOk graphOf s) (hopen : (s.clients k).closed = false) :
    Finds graphOf s k uid ↔ s.Keeps k uid := by
  constructor
  · intro hfinds
    obtain ⟨c, hc, hg⟩ := h.origin uid _ hfinds
    have hconn : s.conn k = c := by
      rcases hg with hg | ⟨hnone, -⟩
      · injection hg with _ howner
        exact some.inj howner
      · cases hnone
    have hin : uid ∈ s.order := (h.stored uid).mp (by rw [hfinds]; rfl)
    exact ⟨by rw [hc, hconn], (h.mem_order_iff hc).mp hin⟩
  · rintro ⟨hlast, hrecent⟩
    have hin : uid ∈ s.order := (h.mem_order_iff hlast).mpr hrecent
    obtain ⟨g, hg⟩ := isSome_iff_exists.mp ((h.stored uid).mpr hin)
    obtain ⟨c, hc, horigin⟩ := h.origin uid g hg
    obtain rfl : s.conn k = c := some.inj (hlast.symm.trans hc)
    rcases horigin with rfl | ⟨-, hdead⟩
    · exact hg
    · exact absurd hdead (not_dead_conn hopen)

/-! ### Steps -/

/-- Sockets are only replaced by later ones, and a connection that is closed stays so. -/
def Onward (s s' : GraphShare G) : Prop :=
  ∀ k, (s.clients k).sock < (s'.clients k).sock ∨
    (s.clients k).sock = (s'.clients k).sock ∧ ((s.clients k).closed = true → (s'.clients k).closed = true)

theorem Dead.onward {c : Conn} (h : s.Dead c) (hon : Onward s s') : s'.Dead c := by
  rcases hon c.client with hlt | ⟨heq, hclosed⟩
  · rcases h with h | ⟨h, -⟩
    · exact .inl (h.trans hlt)
    · exact .inl (h ▸ hlt)
  · rcases h with h | ⟨h, hc⟩
    · exact .inl (heq ▸ h)
    · exact .inr ⟨h.trans heq, hclosed hc⟩

theorem onward_update {c : GraphClient} (hsame : ∀ k', k' ≠ k → s'.clients k' = s.clients k') (hk : s'.clients k = c)
    (hc : (s.clients k).sock < c.sock ∨
      (s.clients k).sock = c.sock ∧ ((s.clients k).closed = true → c.closed = true)) : Onward s s' := by
  intro k'
  by_cases heq : k' = k
  · subst heq
    rw [hk]
    exact hc
  · rw [hsame k' heq]
    exact .inr ⟨rfl, id⟩

theorem CacheOk.setClient (h : CacheOk graphOf s) {c : GraphClient} (hc : (s.clients k).sock < c.sock ∨
    (s.clients k).sock = c.sock ∧ ((s.clients k).closed = true → c.closed = true)) :
    CacheOk graphOf (s.setClient k c) where
  order := h.order
  stored := h.stored
  origin uid g hg := by
    obtain ⟨c', hc', horigin⟩ := h.origin uid g hg
    refine ⟨c', hc', horigin.imp id fun hdead => ⟨hdead.1, hdead.2.onward ?_⟩⟩
    exact onward_update (fun k' hk' => Function.update_of_ne hk' _ _) (Function.update_self ..) hc

theorem graphCompute_same (c : GraphClient) (b : Bool) (uid : Nat) (status : Bool) :
    (c.graphCompute b uid status).sock = c.sock ∧ (c.graphCompute b uid status).closed = c.closed := by
  have hrefresh : c.refreshSock.sock = c.sock ∧ c.refreshSock.closed = c.closed := by
    unfold GraphClient.refreshSock
    split
    · exact ⟨rfl, rfl⟩
    · exact ⟨rfl, rfl⟩
  unfold GraphClient.graphCompute
  dsimp only
  split
  · split
    · exact hrefresh
    · exact hrefresh
  · split
    · exact hrefresh
    · split
      · exact hrefresh
      · exact hrefresh

theorem fusedSend_same (c : GraphClient) (uids : List Nat) (status : Bool) :
    (c.fusedSend uids status).sock = c.sock ∧ (c.fusedSend uids status).closed = c.closed := by
  unfold GraphClient.fusedSend
  split
  · split
    · exact ⟨rfl, rfl⟩
    · exact ⟨rfl, rfl⟩
  · exact ⟨rfl, rfl⟩

theorem lastUpload_cons (e : ServedCmd) (served : List ServedCmd) (uid : Nat) :
    lastUpload (e :: served) uid = if e.uploads = true ∧ e.uid = uid then some e.conn else lastUpload served uid := by
  by_cases he : e.uploads = true ∧ e.uid = uid
  · rw [if_pos he]
    simp [lastUpload, he.1, he.2]
  · rw [if_neg he]
    have hfalse : (e.uploads && decide (e.uid = uid)) = false := by simpa using he
    simp [lastUpload, hfalse]

/-- Placing a uid in the cache is a use of it. -/
theorem place_spec (h : CacheOk graphOf s) (uid : Nat) :
    (s.place uid).order = Lru.touch graphUidCacheCap s.order uid ∧
      (∀ u, ((s.place uid).byUid u).isSome ↔ u ∈ (s.place uid).order) ∧
      (∀ u g, u ≠ uid → (s.place uid).byUid u = some g → s.byUid u = some g) ∧
      (s.place uid).clients = s.clients ∧ (s.place uid).served = s.served := by
  unfold place
  split
  · next hnone =>
      have hnot : uid ∉ s.order := by
        intro hin
        have := (h.stored uid).mpr hin
        rw [hnone] at this
        cases this
      refine ⟨(if_neg hnot).symm, ?_, ?_, rfl, rfl⟩
      · intro u
        simp only
        rw [Function.update_apply, List.mem_append, mem_singleton]
        by_cases hu : u = uid
        · simp [hu]
        · rw [if_neg hu]
          generalize s.order.length + 1 - graphUidCacheCap = n
          have hsplit := take_append_drop n s.order
          have hnodup := h.nodup
          rw [← hsplit, nodup_append] at hnodup
          have hmem : u ∈ s.order ↔ u ∈ s.order.take n ∨ u ∈ s.order.drop n := by
            conv_lhs => rw [← hsplit]
            exact List.mem_append
          by_cases htake : u ∈ s.order.take n
          · have hdrop : u ∉ s.order.drop n := fun hd => hnodup.2.2 u htake u hd rfl
            simp [htake, hdrop, hu]
          · rw [if_neg htake, h.stored, hmem]
            simp only [htake, false_or, hu, or_false]
      · intro u g hu hg
        simp only at hg
        rw [Function.update_of_ne hu] at hg
        split at hg
        · cases hg
        · exact hg
  · next g hsome =>
      have hin : uid ∈ s.order := (h.stored uid).mp (by rw [hsome]; rfl)
      have horder : (s.refresh uid).order = Lru.touch graphUidCacheCap s.order uid := by
        rw [refresh, Lru.touch, if_pos hin, if_pos hin]
      refine ⟨horder, ?_, fun u g _ hg => hg, rfl, rfl⟩
      intro u
      show (s.byUid u).isSome ↔ _
      rw [h.stored, horder, Lru.touch, if_pos hin, List.mem_append, mem_singleton]
      by_cases hu : u = uid
      · simp [hu, hin]
      · simp [hu, mem_erase_of_ne hu]

theorem isSome_store {g : StoredGraph G} (h : ∀ u, (s.byUid u).isSome ↔ u ∈ s.order) (hin : uid ∈ s.order) :
    ∀ u, ((s.store uid g).byUid u).isSome ↔ u ∈ (s.store uid g).order := by
  intro u
  show (update s.byUid uid (some g) u).isSome ↔ u ∈ s.order
  rw [Function.update_apply]
  split
  · next hu => simp [hu, hin]
  · exact h u

theorem answer_client (s : GraphShare G) (k : Nat) (cmd : ServedCmd) (rest : List GraphCmd) (ok : Bool) :
    ((s.answer k cmd rest ok).clients k).sock = (s.clients k).sock ∧
      ((s.answer k cmd rest ok).clients k).closed = ((s.clients k).closed || !ok) ∧
      ∀ k', k' ≠ k → (s.answer k cmd rest ok).clients k' = s.clients k' := by
  unfold answer
  dsimp only
  rw [Function.update_self]
  refine ⟨?_, ?_, fun k' hk' => Function.update_of_ne hk' _ _⟩
  · split
    · rfl
    · rfl
  · cases ok with
    | true => simp
    | false => simp [GraphClient.close]

theorem onward_answer {cmd : ServedCmd} {rest : List GraphCmd} {ok : Bool} (hclients : s'.clients = s.clients) :
    Onward s (s'.answer k cmd rest ok) := by
  obtain ⟨hsock, hclosed, hother⟩ := answer_client s' k cmd rest ok
  rw [hclients] at hsock hclosed hother
  refine onward_update hother rfl (.inr ⟨hsock.symm, fun hc => ?_⟩)
  rw [hclosed, hc]
  rfl

/-- A connection that is closed is dead. -/
theorem dead_answer {cmd : ServedCmd} {rest : List GraphCmd} (hclients : s'.clients = s.clients) :
    (s'.answer k cmd rest false).Dead (s.conn k) := by
  obtain ⟨hsock, hclosed, -⟩ := answer_client s' k cmd rest false
  rw [hclients] at hsock hclosed
  refine .inr ⟨hsock.symm, ?_⟩
  show ((s'.answer k cmd rest false).clients k).closed = true
  rw [hclosed]
  exact Bool.or_true _

theorem CacheOk.serveCompute (h : CacheOk graphOf s) (rest : List GraphCmd) (computes : Bool) :
    CacheOk graphOf ((s.graphComputeUid (s.conn k) uid (graphOf k uid) computes).1.answer k ⟨s.conn k, uid, true⟩ rest
      (s.graphComputeUid (s.conn k) uid (graphOf k uid) computes).2) ∧
      (s.graphComputeUid (s.conn k) uid (graphOf k uid) computes).2 = computes := by
  obtain ⟨horder, hsome, hold, hclients, hserved⟩ := place_spec h uid
  have hin : uid ∈ (s.place uid).order := by
    rw [horder, Lru.touch]
    split
    · exact mem_append_right _ (mem_singleton_self uid)
    · exact mem_append_right _ (mem_singleton_self uid)
  -- Both ways a graph is stored for the uid, and everything else is the same.
  have hstore : ∀ g ok, (g = ⟨some (graphOf k uid), some (s.conn k)⟩ ∨ g.graph = none ∧ ok = false) →
      CacheOk graphOf (((s.place uid).store uid g).answer k ⟨s.conn k, uid, true⟩ rest ok) := by
    intro g ok hg
    have hon : Onward s (((s.place uid).store uid g).answer k ⟨s.conn k, uid, true⟩ rest ok) :=
      onward_answer hclients
    refine ⟨?_, isSome_store hsome hin, ?_⟩
    · show (s.place uid).order = Lru.cached graphUidCacheCap (uses (⟨s.conn k, uid, true⟩ :: (s.place uid).served))
      rw [horder, h.order, hserved, uses_cons, Lru.cached_concat]
    · intro u g' hg'
      show ∃ c, lastUpload (⟨s.conn k, uid, true⟩ :: (s.place uid).served) u = some c ∧ _
      rw [lastUpload_cons, hserved]
      have hg' : update (s.place uid).byUid uid (some g) u = some g' := hg'
      rw [Function.update_apply] at hg'
      by_cases hu : u = uid
      · subst hu
        rw [if_pos rfl] at hg'
        cases hg'
        rw [if_pos ⟨rfl, rfl⟩]
        refine ⟨_, rfl, hg.imp id fun hnone => ⟨hnone.1, ?_⟩⟩
        obtain ⟨-, rfl⟩ := hnone
        exact dead_answer hclients
      · rw [if_neg hu] at hg'
        rw [if_neg fun heq => hu heq.2.symm]
        obtain ⟨c, hc, horigin⟩ := h.origin u g' (hold u g' hu hg')
        exact ⟨c, hc, horigin.imp id fun hdead => ⟨hdead.1, hdead.2.onward hon⟩⟩
  cases computes with
  | true => exact ⟨hstore _ true (.inl rfl), rfl⟩
  | false => exact ⟨hstore _ false (.inr ⟨rfl, rfl⟩), rfl⟩

theorem CacheOk.serveRecompute (h : CacheOk graphOf s) (hfinds : Finds graphOf s k uid) (rest : List GraphCmd)
    (hkeeps : s.Keeps k uid) (computes : Bool) :
    CacheOk graphOf ((s.graphRecomputeUid (s.conn k) uid computes).1.answer k ⟨s.conn k, uid, false⟩ rest
      (s.graphRecomputeUid (s.conn k) uid computes).2) ∧
      (s.graphRecomputeUid (s.conn k) uid computes).2 = computes := by
  have hfinds : s.byUid uid = some ⟨some (graphOf k uid), some (s.conn k)⟩ := hfinds
  have hin : uid ∈ s.order := (h.stored uid).mp (by rw [hfinds]; rfl)
  have horder : (s.refresh uid).order = Lru.touch graphUidCacheCap s.order uid := by
    rw [refresh, Lru.touch, if_pos hin, if_pos hin]
  have hmem : ∀ u, u ∈ (s.refresh uid).order ↔ u ∈ s.order := by
    intro u
    rw [horder, Lru.touch, if_pos hin, List.mem_append, mem_singleton]
    by_cases hu : u = uid
    · simp [hu, hin]
    · simp [hu, mem_erase_of_ne hu]
  have hsome : ∀ u, ((s.refresh uid).byUid u).isSome ↔ u ∈ (s.refresh uid).order := by
    intro u
    rw [hmem]
    exact h.stored u
  have huses : Lru.touch graphUidCacheCap s.order uid =
      Lru.cached graphUidCacheCap (uses (⟨s.conn k, uid, false⟩ :: s.served)) := by
    rw [uses_cons, Lru.cached_concat, h.order]
  have hlast : ∀ u, lastUpload (⟨s.conn k, uid, false⟩ :: s.served) u = lastUpload s.served u := by
    intro u
    rw [lastUpload_cons, if_neg (by simp)]
  cases computes with
  | true =>
    have hr : s.graphRecomputeUid (s.conn k) uid true = (s.refresh uid, true) := by
      simp [graphRecomputeUid, hfinds]
    rw [hr]
    refine ⟨⟨horder.trans huses, hsome, ?_⟩, rfl⟩
    intro u g hg
    obtain ⟨c, hc, horigin⟩ := h.origin u g hg
    exact ⟨c, (hlast u).trans hc, horigin.imp id fun hdead => ⟨hdead.1, hdead.2.onward (onward_answer rfl)⟩⟩
  | false =>
    have hr : s.graphRecomputeUid (s.conn k) uid false =
        ((s.refresh uid).store uid ⟨none, some (s.conn k)⟩, false) := by
      simp [graphRecomputeUid, hfinds]
    rw [hr]
    have hon : Onward s (((s.refresh uid).store uid ⟨none, some (s.conn k)⟩).answer k ⟨s.conn k, uid, false⟩ rest
        false) := onward_answer rfl
    refine ⟨⟨horder.trans huses, isSome_store hsome ((hmem uid).mpr hin), ?_⟩, rfl⟩
    intro u g hg
    have hg : update s.byUid uid (some ⟨none, some (s.conn k)⟩) u = some g := hg
    rw [Function.update_apply] at hg
    by_cases hu : u = uid
    · subst hu
      rw [if_pos rfl] at hg
      cases hg
      exact ⟨s.conn k, (hlast u).trans hkeeps.1, .inr ⟨rfl, dead_answer rfl⟩⟩
    · rw [if_neg hu] at hg
      obtain ⟨c, hc, horigin⟩ := h.origin u g hg
      exact ⟨c, (hlast u).trans hc, horigin.imp id fun hdead => ⟨hdead.1, hdead.2.onward hon⟩⟩

/-! ### Runs -/

theorem cacheOk_start (graphOf : Nat → Nat → G) : CacheOk graphOf {} where
  order := rfl
  stored uid := by simp
  origin uid g hg := nomatch hg

/-- Serving a command for a client whose connection is open -/
theorem serve_cases {computes : Bool} (h : step graphOf nonempty s (.serve k computes) = some s') :
    (s.clients k).closed = false ∧ ∃ uid rest,
      ((s.clients k).queue = .computeUid uid :: rest ∧
        s' = (s.graphComputeUid (s.conn k) uid (graphOf k uid) computes).1.answer k ⟨s.conn k, uid, true⟩ rest
          (s.graphComputeUid (s.conn k) uid (graphOf k uid) computes).2 ∨
      (s.clients k).queue = .recomputeUid uid :: rest ∧
        s' = (s.graphRecomputeUid (s.conn k) uid computes).1.answer k ⟨s.conn k, uid, false⟩ rest
          (s.graphRecomputeUid (s.conn k) uid computes).2) := by
  simp only [step] at h
  split at h
  · cases h
  · next hopen =>
      refine ⟨by simpa using hopen, ?_⟩
      split at h
      · cases h
      · next uid rest hq =>
          cases h
          exact ⟨uid, rest, .inl ⟨hq, rfl⟩⟩
      · next uid rest hq =>
          cases h
          exact ⟨uid, rest, .inr ⟨hq, rfl⟩⟩

theorem CacheOk.step {a : GraphAction} (h : CacheOk graphOf s) (hp : s.Permitted a)
    (hs : step graphOf nonempty s a = some s') : CacheOk graphOf s' := by
  cases a with
  | compute k uid status =>
    obtain ⟨-, hs⟩ := ite_none_left_eq_some.mp hs
    cases hs
    obtain ⟨hsock, hclosed⟩ := graphCompute_same (s.clients k) (nonempty k uid) uid status
    exact h.setClient (.inr ⟨hsock.symm, fun hc => hclosed.trans hc⟩)
  | fused k uids status =>
    cases hs
    obtain ⟨hsock, hclosed⟩ := fusedSend_same (s.clients k) uids status
    exact h.setClient (.inr ⟨hsock.symm, fun hc => hclosed.trans hc⟩)
  | reconnect k =>
    cases hs
    exact h.setClient (.inl (Nat.lt_succ_self _))
  | serve k computes =>
    obtain ⟨hopen, uid, rest, ⟨hq, rfl⟩ | ⟨hq, rfl⟩⟩ := serve_cases hs
    · exact (h.serveCompute rest computes).1
    · have hkeeps := hp uid rest hq
      exact (h.serveRecompute ((h.finds_iff hopen).mpr hkeeps) rest hkeeps computes).1

/-- In a run where the worker still has the upload of every recompute that it serves: a recompute that comes next finds the
graph of its client if and only if the worker still has the upload, and if a command that is permitted is served, the
connection is closed only if the computation fails, and no other connection is. -/
theorem remembered_served {s : GraphShare G} (hreach : Runs.Reaches (step graphOf nonempty) Permitted {} s) (k : Nat) :
    (∀ uid rest, (s.clients k).closed = false → (s.clients k).queue = .recomputeUid uid :: rest →
      (Finds graphOf s k uid ↔ s.Keeps k uid)) ∧
    ∀ computes s', s.Permitted (.serve k computes) → step graphOf nonempty s (.serve k computes) = some s' →
      (∀ uid rest, (s.clients k).queue = .recomputeUid uid :: rest → Finds graphOf s k uid) ∧
        (s'.clients k).closed = !computes ∧ ∀ k', k' ≠ k → (s'.clients k').closed = (s.clients k').closed := by
  have h : CacheOk graphOf s := hreach.inv (fun _ _ _ h hp hs => h.step hp hs) (cacheOk_start graphOf)
  refine ⟨fun uid rest hopen _ => h.finds_iff hopen, ?_⟩
  intro computes s' hp hs
  obtain ⟨hopen, uid, rest, hserved⟩ := serve_cases hs
  refine ⟨fun uid' rest' hq' => (h.finds_iff hopen).mpr (hp uid' rest' hq'), ?_⟩
  have hclosed : ∀ {t : GraphShare G} {cmd : ServedCmd}, t.clients = s.clients →
      ((t.answer k cmd rest computes).clients k).closed = !computes ∧
        ∀ k', k' ≠ k → ((t.answer k cmd rest computes).clients k').closed = (s.clients k').closed := by
    intro t cmd ht
    obtain ⟨-, hk, hother⟩ := answer_client t k cmd rest computes
    refine ⟨by rw [hk, ht, hopen, Bool.false_or], fun k' hk' => by rw [hother k' hk', ht]⟩
  rcases hserved with ⟨hq, rfl⟩ | ⟨hq, rfl⟩
  · rw [(h.serveCompute rest computes).2]
    refine hclosed ?_
    obtain ⟨-, -, -, hclients, -⟩ := place_spec h uid
    cases computes with
    | true | false => exact hclients
  · have hkeeps := hp uid rest hq
    have hfinds : s.byUid uid = some ⟨some (graphOf k uid), some (s.conn k)⟩ := (h.finds_iff hopen).mpr hkeeps
    rw [(h.serveRecompute hfinds rest hkeeps computes).2]
    refine hclosed ?_
    cases computes with
    | true => simp [graphRecomputeUid, hfinds, refresh]
    | false => simp [graphRecomputeUid, hfinds, refresh, store]

def Computes : GraphAction → Prop
  | .serve _ computes => computes = true
  | _ => True

/-- The runs in which no computation fails and every recompute is served while the worker has the upload -/
abbrev Reached (s : GraphShare (Nat × Nat)) : Prop :=
  Runs.Reaches (step Prod.mk fun _ _ => true) (fun s a => s.Permitted a ∧ Computes a) {} s

theorem Reached.compute {s s' : GraphShare (Nat × Nat)} (h : Reached s) (k uid : Nat) (huid : uid ≠ 0)
    (hs' : s' = s.setClient k ((s.clients k).graphCompute true uid true)) : Reached s' :=
  Runs.Reaches.step h (show s.Permitted (.compute k uid true) ∧ Computes (.compute k uid true) from ⟨trivial, trivial⟩)
    (hs' ▸ if_neg huid)

theorem Reached.serve {s s' : GraphShare (Nat × Nat)} (h : Reached s) (k uid : Nat)
    (hq : (s.clients k).queue = [.computeUid uid])
    (hs' : step Prod.mk (fun _ _ => true) s (.serve k true) = some s') : Reached s' := by
  refine Runs.Reaches.step h (show s.Permitted (.serve k true) ∧ Computes (.serve k true) from ⟨?_, rfl⟩) hs'
  intro uid' rest hq'
  rw [hq] at hq'
  cases hq'

/-- A graph that is sent, served, and asked for again. -/
theorem remembered_served_again :
    ∃ s : GraphShare (Nat × Nat), (s.clients 0).queue = [.recomputeUid 1] ∧
      (Finds Prod.mk s 0 1 ↔ s.Keeps 0 1) ∧ s.Keeps 0 1 := by
  have hsent : Reached _ := Reached.compute .refl 0 1 (by decide) rfl
  have hserved : Reached _ := hsent.serve 0 1 rfl rfl
  have hagain : Reached _ := hserved.compute 0 1 (by decide) rfl
  have hpermitted : Runs.Reaches (step Prod.mk fun _ _ => true) Permitted {} _ := Runs.Reaches.mono (fun _ _ h => h.1) hagain
  exact ⟨_, rfl, (remembered_served hpermitted 0).1 1 [] rfl rfl, rfl, by decide⟩

/-! ### Every run -/

/-- A graph in the cache is the one that its owner uploaded. -/
def Owned (graphOf : Nat → Nat → G) (s : GraphShare G) : Prop :=
  ∀ uid g owner, s.byUid uid = some ⟨some g, owner⟩ → ∃ c ∈ owner, g = graphOf c.client uid

theorem Owned.store (h : Owned graphOf s) {e : StoredGraph G}
    (he : ∀ g owner, e = ⟨some g, owner⟩ → ∃ c ∈ owner, g = graphOf c.client uid) : Owned graphOf (s.store uid e) := by
  intro u g owner hg
  have hg : update s.byUid uid (some e) u = some ⟨some g, owner⟩ := hg
  rw [Function.update_apply] at hg
  split at hg
  · next hu => exact hu ▸ he g owner (some.inj hg)
  · exact h u g owner hg

theorem Owned.place (h : Owned graphOf s) (uid : Nat) : Owned graphOf (s.place uid) := by
  unfold GraphShare.place
  split
  · intro u g owner hg
    simp only [Function.update_apply] at hg
    split at hg
    · cases hg
    · split at hg
      · cases hg
      · exact h u g owner hg
  · exact h

theorem Owned.step {a : GraphAction} (h : Owned graphOf s) (hs : step graphOf nonempty s a = some s') :
    Owned graphOf s' := by
  cases a with
  | compute =>
    cases (ite_none_left_eq_some.mp hs).2
    exact h
  | fused | reconnect =>
    cases hs
    exact h
  | serve k computes =>
    obtain ⟨-, uid, rest, ⟨-, rfl⟩ | ⟨-, rfl⟩⟩ := serve_cases hs
    · cases computes with
      | true =>
        refine (h.place uid).store fun g owner heq => ?_
        cases heq
        exact ⟨_, rfl, rfl⟩
      | false => exact (h.place uid).store nofun
    · show Owned graphOf (s.graphRecomputeUid (s.conn k) uid computes).1
      unfold graphRecomputeUid
      split
      · exact h
      · exact h
      · have hrefresh : Owned graphOf (s.refresh uid) := h
        dsimp only
        split
        · exact hrefresh
        · cases computes with
          | true => exact hrefresh
          | false => exact hrefresh.store nofun

/-- In every run a recompute is served only if it finds the graph that its client has uploaded over the same connection. -/
theorem recompute_own {s : GraphShare G} (hreach : Runs.Reaches (step graphOf nonempty) (fun _ _ => True) {} s)
    {k uid : Nat} {computes : Bool} (hserved : (s.graphRecomputeUid (s.conn k) uid computes).2 = true) :
    Finds graphOf s k uid := by
  have h : Owned graphOf s := hreach.inv (fun _ _ _ h _ hs => h.step hs) (by simp [Owned])
  unfold graphRecomputeUid at hserved
  split at hserved
  · cases hserved
  · cases hserved
  · next g owner hg =>
    dsimp only at hserved
    split at hserved
    · cases hserved
    · next howner =>
      obtain rfl := not_ne_iff.mp howner
      obtain ⟨c, hc, rfl⟩ := h uid g _ hg
      cases hc
      exact hg

theorem recompute_own_again : ∃ s : GraphShare (Nat × Nat),
    (s.graphRecomputeUid (s.conn 0) 1 true).2 = true ∧ Finds Prod.mk s 0 1 := by
  have hsent : Reached _ := Reached.compute .refl 0 1 (by decide) rfl
  have hserved : Reached _ := hsent.serve 0 1 rfl rfl
  exact ⟨_, rfl, recompute_own (Runs.Reaches.mono (fun _ _ _ => trivial) hserved)
    (show (graphRecomputeUid _ _ 1 true).2 = true from rfl)⟩

/-! ### Uploads that push out the graph of another client -/

/-- Client 0 has sent uid 1, and then client 1 the uids from 2 on. -/
structure Flooded (n : Nat) (s : GraphShare (Nat × Nat)) : Prop where
  reached : Reached s
  zero : s.clients 0 = { sentUids := [1], sentSock := some 0 }
  one : ∃ uids sock, s.clients 1 = { sentUids := uids, sentSock := sock } ∧ ∀ u ∈ uids, u < n + 2
  served : s.served.map (·.uid) = (List.range' 2 n).reverse ++ [1]

theorem flooded_zero : ∃ s, Flooded 0 s := by
  have hsent : Reached _ := Reached.compute .refl 0 1 (by decide) rfl
  have hserved : Reached _ := hsent.serve 0 1 rfl rfl
  exact ⟨_, hserved, rfl, ⟨[], none, rfl, fun u hu => nomatch hu⟩, rfl⟩

theorem graphCompute_new {uids : List Nat} (sock : Option Nat) {n : Nat} (huids : ∀ u ∈ uids, u < n) :
    ∃ uids' sock', ({ sentUids := uids, sentSock := sock } : GraphClient).graphCompute true n true =
      { sentUids := uids', sentSock := sock', queue := [.computeUid n] } ∧ ∀ u ∈ uids', u < n + 1 := by
  have hrefresh : ∃ uids' sock', ({ sentUids := uids, sentSock := sock } : GraphClient).refreshSock =
      { sentUids := uids', sentSock := sock' } ∧ ∀ u ∈ uids', u < n := by
    unfold GraphClient.refreshSock
    split
    · exact ⟨uids, sock, rfl, huids⟩
    · exact ⟨[], _, rfl, fun u hu => nomatch hu⟩
  obtain ⟨uids', sock', heq, huids'⟩ := hrefresh
  have hnew : n ∉ uids' := fun hin => Nat.lt_irrefl n (huids' n hin)
  unfold GraphClient.graphCompute
  rw [heq, if_neg hnew, if_neg (by decide), if_pos rfl]
  refine ⟨_, _, rfl, ?_⟩
  intro u hu
  have hmem : u ∈ uids' ++ [n] := by
    split at hu
    · exact mem_of_mem_tail hu
    · exact hu
  rcases List.mem_append.mp hmem with hu | hu
  · exact Nat.lt_succ_of_lt (huids' u hu)
  · rw [mem_singleton.mp hu]
    exact Nat.lt_succ_self n

theorem Reached.cacheOk {s : GraphShare (Nat × Nat)} (h : Reached s) : CacheOk Prod.mk s :=
  Runs.Reaches.inv (fun _ _ _ h hp hs => h.step hp.1 hs) (cacheOk_start Prod.mk) h

theorem Flooded.succ {n : Nat} {s : GraphShare (Nat × Nat)} (h : Flooded n s) : ∃ s', Flooded (n + 1) s' := by
  obtain ⟨uids, sock, hone, huids⟩ := h.one
  obtain ⟨uids', sock', hnew, huids'⟩ := graphCompute_new sock huids
  have hsent : Reached (s.setClient 1 { sentUids := uids', sentSock := sock', queue := [.computeUid (n + 2)] }) :=
    h.reached.compute 1 (n + 2) (Nat.succ_ne_zero _) (by rw [hone, hnew])
  set s₁ := s.setClient 1 { sentUids := uids', sentSock := sock', queue := [.computeUid (n + 2)] } with hs₁
  have hserved : Reached _ := hsent.serve 1 (n + 2) rfl rfl
  obtain ⟨-, -, -, hclients, hold⟩ := place_spec hsent.cacheOk (n + 2)
  refine ⟨_, hserved, ?_, ⟨uids', sock', ?_, huids'⟩, ?_⟩
  · show update (s₁.place (n + 2)).clients 1 { (s₁.place (n + 2)).clients 1 with queue := [] } 0 = _
    rw [Function.update_of_ne (by decide), hclients]
    exact h.zero
  · show update (s₁.place (n + 2)).clients 1 { (s₁.place (n + 2)).clients 1 with queue := [] } 1 = _
    rw [Function.update_self, hclients]
    rfl
  · show (n + 2) :: ((s₁.place (n + 2)).served.map (·.uid)) = _
    rw [hold, show s₁.served = s.served from rfl, h.served, range'_1_concat, reverse_append, Nat.add_comm 2 n]
    rfl

theorem flooded (n : Nat) : ∃ s, Flooded n s := by
  induction n with
  | zero => exact flooded_zero
  | succ n ih =>
    obtain ⟨s, hs⟩ := ih
    exact hs.succ

/-- After 512 uploads of client 1 the worker closes the connection of client 0, although no computation fails. -/
theorem flood_closes :
    ∃ s : GraphShare (Nat × Nat),
      Runs.Reaches (step Prod.mk fun _ _ => true) (fun _ a => Computes a) {} s ∧ (s.clients 0).closed = true := by
  obtain ⟨s, hs⟩ := flooded 512
  have hagain : Reached (s.setClient 0 { sentUids := [1], sentSock := some 0, queue := [.recomputeUid 1] }) :=
    hs.reached.compute 0 1 (by decide) (by rw [hs.zero]; rfl)
  -- 512 other uids were served since uid 1 was, so that it is no longer in the cache.
  have hsince : (usedSince s.served 1).length = 512 := by
    have hmap : (s.served.takeWhile fun e => decide (e.uid ≠ 1)).map (·.uid) =
        (s.served.map (·.uid)).takeWhile fun u => decide (u ≠ 1) := by
      rw [takeWhile_map]
      rfl
    have htake : ((List.range' 2 512).reverse ++ [1]).takeWhile (fun u => decide (u ≠ 1)) =
        (List.range' 2 512).reverse := by
      rw [takeWhile_append_of_pos, takeWhile_cons_of_neg (by decide), append_nil]
      intro u hu
      have := mem_range'_1.mp (mem_reverse.mp hu)
      exact decide_eq_true (by omega)
    have hnodup : (List.range' 2 512).reverse.Nodup := nodup_reverse.mpr nodup_range'
    rw [usedSince, hmap, hs.served, htake, hnodup.dedup, length_reverse, length_range']
  have hgone : s.byUid 1 = none := by
    have hok := hs.reached.cacheOk
    cases hg : s.byUid 1 with
    | none => rfl
    | some g =>
      obtain ⟨c, hc, -⟩ := hok.origin 1 g hg
      have hin : 1 ∈ s.order := (hok.stored 1).mp (by rw [hg]; rfl)
      have hlt := (hok.mem_order_iff hc).mp hin
      rw [hsince] at hlt
      exact absurd hlt (by decide)
  have hrecompute : ∀ t : GraphShare (Nat × Nat), t.byUid = s.byUid →
      t.graphRecomputeUid (t.conn 0) 1 true = (t, false) := by
    intro t ht
    simp [graphRecomputeUid, ht, hgone]
  set s₁ := s.setClient 0 { sentUids := [1], sentSock := some 0, queue := [.recomputeUid 1] } with hs₁
  have hplain : Runs.Reaches (step Prod.mk fun _ _ => true) (fun _ a => Computes a) {} s₁ :=
    Runs.Reaches.mono (fun _ _ h => h.2) hagain
  refine ⟨_, hplain.step (show Computes (.serve 0 true) from rfl) rfl, ?_⟩
  rw [hrecompute s₁ rfl]
  rfl

end GraphShare

end LlamaCpp.Rpc
