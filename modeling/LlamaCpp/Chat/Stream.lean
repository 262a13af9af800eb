import LlamaCpp.Chat.Diffs
import Mathlib.Data.List.Chain

/-!
# Streamed chat messages

`task_result_state::update_chat_msg` of server-task.cpp.  A parsed message gets its tool call ids, and its
differences from the previous one go to the client.  With `filter_tool_calls` the name of a call is withheld until
something else is to be said.

What `common_chat_parse` returns is the input of an update, and `gen` has the ids that `gen_tool_call_id` makes.
The messages of a run grow (`Msg.Grows`).  Without exception no update throws and the differences rebuild the last
message.  But a difference of the same update that stands before the call flushes a name that may grow on, so every
call is announced under its last name exactly if no such update occurs (`streamsRight_iff`).
-/

namespace LlamaCpp.Chat

/-- The loop of `set_tool_call_ids`, from call `i` on: the calls with their ids, and the cache. -/
def setToolCallIds (gen : Nat → Text) : Nat → List Text → List ToolCall → List ToolCall × List Text
  | _, idsCache, [] => ([], idsCache)
  | i, idsCache, c :: cs =>
    let cache := if idsCache.length ≤ i then idsCache ++ [if c.id = [] then gen i else c.id] else idsCache
    let (cs, idsCache) := setToolCallIds gen (i + 1) cache cs
    ({ c with id := cache.getD i [] } :: cs, idsCache)

/-- `task_result_state` -/
structure TaskState where
  chatMsg : Msg := {}
  generatedToolCallIds : List Text := []
  sentToolCallNames : List Nat := []
deriving DecidableEq

section Filter

variable (calls : List ToolCall) (isPartial : Bool)

def header (i : Nat) : MsgDiff where
  toolCallIndex := some i
  toolCallDelta := { id := (calls.getD i {}).id, name := (calls.getD i {}).name }

/-- The calls with a name that was not sent. -/
def pending (sent : List Nat) : List Nat :=
  (List.range calls.length).filter fun i => i ∉ sent ∧ (calls.getD i {}).name ≠ []

/-- A new type of difference flushes the names that are pending. -/
def flushedBy (sent : List Nat) (d : MsgDiff) : List Nat :=
  (pending calls sent).filter fun i => d.toolCallIndex ≠ some i ∨ d.toolCallDelta.arguments ≠ []

/-- What the loop of `update_chat_msg` makes of the difference itself. -/
def ownDiff (sent : List Nat) (d : MsgDiff) : List MsgDiff × List Nat :=
  match d.toolCallIndex with
  | none => ([d], sent)
  | some i =>
    if i ∈ sent then
      if d.toolCallDelta.arguments ≠ [] then
        ([{ d with toolCallDelta := { d.toolCallDelta with name := [], id := [] } }], sent)
      else ([], sent)
    else if d.toolCallDelta.arguments ≠ [] ∨ ¬isPartial then
      let call := calls.getD i {}
      ([{ d with toolCallDelta := { d.toolCallDelta with name := call.name, id := call.id } }], sent ++ [i])
    else ([], sent)

/-- The loop of `update_chat_msg` for one difference. -/
def filterDiff (sent : List Nat) (d : MsgDiff) : List MsgDiff × List Nat :=
  let flushed := flushedBy calls sent d
  let (out, sent) := ownDiff calls isPartial (sent ++ flushed) d
  (flushed.map (header calls) ++ out, sent)

def filterDiffs : List Nat → List MsgDiff → List MsgDiff × List Nat
  | sent, [] => ([], sent)
  | sent, d :: ds =>
    let (out, sent) := filterDiff calls isPartial sent d
    let (rest, sent) := filterDiffs sent ds
    (out ++ rest, sent)

/-- The differences that go out, and the names that are sent. -/
def filterToolCalls (sent : List Nat) (ds : List MsgDiff) : List MsgDiff × List Nat :=
  let (out, sent) := filterDiffs calls isPartial sent ds
  if isPartial then (out, sent) else (out ++ (pending calls sent).map (header calls), sent ++ pending calls sent)

end Filter

/-- `update_chat_msg`, with the message that was parsed. -/
def updateChatMsg (gen : Nat → Text) (filter : Bool) (s : TaskState) (newMsg : Msg) (isPartial : Bool) :
    Except DiffError (TaskState × List MsgDiff) :=
  if newMsg.isEmpty then .ok (s, [])
  else
    let (calls, ids) := setToolCallIds gen 0 s.generatedToolCallIds newMsg.toolCalls
    let chatMsg := { newMsg with toolCalls := calls }
    (computeDiffs s.chatMsg chatMsg).map fun allDiffs =>
      if filter then
        let (diffs, sent) := filterToolCalls calls isPartial s.sentToolCallNames allDiffs
        ({ chatMsg := chatMsg, generatedToolCallIds := ids, sentToolCallNames := sent }, diffs)
      else ({ s with chatMsg := chatMsg, generatedToolCallIds := ids }, allDiffs)

/-- An update that appends its differences to those of the updates before. -/
def streamUpdate (gen : Nat → Text) (filter isPartial : Bool) (acc : TaskState × List MsgDiff) (newMsg : Msg) :
    Except DiffError (TaskState × List MsgDiff) :=
  (updateChatMsg gen filter acc.1 newMsg isPartial).map fun (s, ds) => (s, acc.2 ++ ds)

/-- A run of partial updates with a last one that is not. -/
def stream (gen : Nat → Text) (filter : Bool) (start : Msg) (parts : List Msg) (last : Msg) :
    Except DiffError (TaskState × List MsgDiff) := do
  let acc ← parts.foldlM (streamUpdate gen filter true) ({ chatMsg := start }, [])
  streamUpdate gen filter false acc last

/-! ## What is to be streamed -/

def Msg.callAt (m : Msg) (i : Nat) : Option (Text × Text) := (m.toolCalls[i]?).map fun c => (c.name, c.arguments)

def Msg.nameAt (m : Msg) (i : Nat) : Text := (m.toolCalls.getD i {}).name

/-- The next message of a run: the name of the last call is final once it has arguments, or a call follows it. -/
structure Msg.Grows (m m' : Msg) : Prop extends Msg.Extends m m' where
  settled : ∀ c ∈ m.toolCalls[m.toolCalls.length - 1]?, ∀ c' ∈ m'.toolCalls[m.toolCalls.length - 1]?,
    c.arguments ≠ [] → c'.name = c.name

/-- `chat` is the message `m` with these ids. -/
structure Follows (chat : Msg) (ids : List Text) (m : Msg) : Prop where
  content : chat.content = m.content
  reasoning : chat.reasoningContent = m.reasoningContent
  length : ids.length = m.toolCalls.length
  calls : ∀ i, chat.toolCalls[i]? = (m.toolCalls[i]?).map fun c : ToolCall => { c with id := ids.getD i [] }

/-- Every call with a name is announced once, with this name and its id, in front of its arguments. -/
def Announces (m : Msg) (ds : List MsgDiff) : Prop :=
  ∀ i, ∀ c ∈ m.toolCalls[i]?, c.name ≠ [] → ∃ d rest, diffsAt ds i = d :: rest ∧
    d.toolCallDelta = { name := c.name, id := c.id } ∧ ∀ e ∈ rest, e.toolCallDelta.name = []

/-- No update throws, the last message is kept with its ids, the differences rebuild it, and with the filter they
announce its calls. -/
def StreamsRight (gen : Nat → Text) (start : Msg) (parts : List Msg) (last : Msg) : Prop :=
  ∀ filter, ∃ s ds, stream gen filter start parts last = .ok (s, ds) ∧
    Follows s.chatMsg s.generatedToolCallIds last ∧ Rebuilds start s.chatMsg ds ∧
      (filter = true → Announces s.chatMsg ds)

/-- If the last call has a name that is not yet the final one, nothing but this call has changed. -/
def NameAlone (last m m' : Msg) : Prop :=
  let l := m'.toolCalls.length - 1
  m'.nameAt l ≠ [] → m'.nameAt l ≠ last.nameAt l →
    m.content = m'.content ∧ m.reasoningContent = m'.reasoningContent ∧ ∀ j ≠ l, m.callAt j = m'.callAt j

/-! ## Ids -/

section Ids

variable {gen : Nat → Text} {cache : List Text} {i : Nat} {cs : List ToolCall}

/-- What the loop of `set_tool_call_ids` does from call `i` on. -/
structure SetsIds (i : Nat) (cache : List Text) (cs : List ToolCall) (r : List ToolCall × List Text) : Prop where
  keeps : cache <+: r.2
  length : r.2.length = max cache.length (i + cs.length)
  calls : ∀ j : Nat, r.1[j]? = (cs[j]?).map fun c : ToolCall => { c with id := r.2.getD (i + j) [] }

theorem getD_of_prefix {ids ids' : List Text} (h : ids <+: ids') (hi : i < ids.length) : ids'.getD i [] = ids.getD i [] := by
  obtain ⟨rest, rfl⟩ := h
  rw [List.getD_eq_getElem?_getD, List.getD_eq_getElem?_getD, List.getElem?_append_left hi]

theorem setToolCallIds_spec (hi : i ≤ cache.length) : SetsIds i cache cs (setToolCallIds gen i cache cs) := by
  induction cs generalizing i cache with
  | nil => exact ⟨List.prefix_refl _, (Nat.max_eq_left hi).symm, fun _ => rfl⟩
  | cons c cs ih =>
    unfold setToolCallIds
    generalize hnext : (if cache.length ≤ i then cache ++ [if c.id = [] then gen i else c.id] else cache) = next
    have hpre : cache <+: next := by
      rw [← hnext]
      split
      · exact List.prefix_append _ _
      · exact List.prefix_refl _
    have hlen : next.length = max cache.length (i + 1) := by
      rw [← hnext]
      split
      · rw [List.length_append, List.length_singleton]
        omega
      · omega
    have h : SetsIds (i + 1) next cs (setToolCallIds gen (i + 1) next cs) := ih (by omega)
    refine ⟨hpre.trans h.keeps, ?_, fun j => ?_⟩
    · rw [h.length, hlen, List.length_cons]
      omega
    · cases j with
      | zero =>
        have hget := getD_of_prefix h.keeps (show i < next.length by omega)
        simp only [List.getElem?_cons_zero, Option.map_some, Nat.add_zero, hget]
      | succ j => simpa [Nat.add_assoc, Nat.add_comm 1 j] using h.calls j

end Ids

/-! ## One update -/

section Update

variable {chat m m' : Msg} {ids : List Text} {s : TaskState}

theorem Msg.isEmpty_iff : m.isEmpty = true ↔ m.content = [] ∧ m.contentParts = [] ∧ m.toolCalls = [] ∧
    m.reasoningContent = [] ∧ m.toolName = [] ∧ m.toolCallId = [] := by
  unfold Msg.isEmpty
  exact decide_eq_true_iff

theorem Follows.calls_length (h : Follows chat ids m) : chat.toolCalls.length = m.toolCalls.length := by
  refine Nat.le_antisymm ?_ ?_
  · refine List.getElem?_eq_none_iff.mp ?_
    rw [h.calls, List.getElem?_eq_none (Nat.le_refl _)]
    rfl
  · have hnone := h.calls chat.toolCalls.length
    rw [List.getElem?_eq_none (Nat.le_refl _)] at hnone
    exact List.getElem?_eq_none_iff.mp (Option.map_eq_none_iff.mp hnone.symm)

/-- The message with the new ids extends the one with the old ids. -/
theorem Follows.extends {chat' : Msg} {ids' : List Text} (h : Follows chat ids m) (h' : Follows chat' ids' m')
    (hids : ids <+: ids') (hext : m.Extends m') : chat.Extends chat' where
  content := by rw [h.content, h'.content]; exact hext.content
  reasoning := by rw [h.reasoning, h'.reasoning]; exact hext.reasoning
  earlier := fun i hi => by
    rw [h.calls_length] at hi
    rw [h.calls, h'.calls, hext.earlier i hi, getD_of_prefix hids (by rw [h.length]; omega)]
  last := fun c hc => by
    rw [h.calls_length] at hc ⊢
    rw [Option.mem_def, h.calls] at hc
    obtain ⟨d, hd, rfl⟩ := Option.map_eq_some_iff.mp hc
    obtain ⟨d', hd', hdd⟩ := hext.last d hd
    exact ⟨{ d' with id := ids'.getD (m.toolCalls.length - 1) [] }, by rw [Option.mem_def, h'.calls, hd', Option.map_some],
      hdd.arguments, hdd.name⟩

theorem AreDiffs.refl (m : Msg) : AreDiffs m m [] where
  rebuilds := Rebuilds.refl m
  text := fun _ hd => absurd hd List.not_mem_nil
  index := fun _ hd => absurd hd List.not_mem_nil
  only := fun _ => ⟨fun _ => ⟨rfl, rfl, fun _ _ => rfl⟩, fun _ _ hd => absurd hd List.not_mem_nil⟩

theorem Follows.of_empty (h : Follows chat ids m) (hext : m.Extends m') (hempty : m'.isEmpty = true) :
    Follows chat ids m' := by
  obtain ⟨hcontent, -, hcalls, hreasoning, -, -⟩ := Msg.isEmpty_iff.mp hempty
  have hlen := hext.length_le
  have hnil : m.toolCalls = [] := List.eq_nil_of_length_eq_zero (by rw [hcalls] at hlen; exact Nat.le_zero.mp hlen)
  refine ⟨?_, ?_, ?_, fun i => ?_⟩
  · rw [h.content, hcontent]
    exact List.prefix_nil.mp (hcontent ▸ hext.content)
  · rw [h.reasoning, hreasoning]
    exact List.prefix_nil.mp (hreasoning ▸ hext.reasoning)
  · rw [h.length, hnil, hcalls]
  · rw [h.calls, hnil, hcalls]

/-- What an update does that gets the next message of a run. -/
theorem updateChatMsg_ok (gen : Nat → Text) (h : Follows s.chatMsg s.generatedToolCallIds m) (hext : m.Extends m') :
    ∃ chat ids ds, Follows chat ids m' ∧ s.generatedToolCallIds <+: ids ∧ AreDiffs s.chatMsg chat ds ∧
      ∀ isPartial,
        updateChatMsg gen false s m' isPartial = .ok ({ s with chatMsg := chat, generatedToolCallIds := ids }, ds) ∧
        updateChatMsg gen true s m' isPartial =
          .ok ({ chatMsg := chat
                 generatedToolCallIds := ids
                 sentToolCallNames := (filterToolCalls chat.toolCalls isPartial s.sentToolCallNames ds).2 },
            (filterToolCalls chat.toolCalls isPartial s.sentToolCallNames ds).1) := by
  cases hempty : m'.isEmpty with
  | true =>
    have hchat := h.of_empty hext hempty
    refine ⟨s.chatMsg, s.generatedToolCallIds, [], hchat, List.prefix_refl _, AreDiffs.refl _, fun isPartial => ?_⟩
    have hnil : s.chatMsg.toolCalls = [] := by
      have hlen := hchat.calls_length
      rw [(Msg.isEmpty_iff.mp hempty).2.2.1] at hlen
      exact List.eq_nil_of_length_eq_zero hlen
    have hfilter : filterToolCalls s.chatMsg.toolCalls isPartial s.sentToolCallNames [] = ([], s.sentToolCallNames) := by
      rw [hnil]
      cases isPartial <;> simp [filterToolCalls, filterDiffs, pending]
    unfold updateChatMsg
    rw [hempty, hfilter]
    exact ⟨rfl, rfl⟩
  | false =>
    have hset : SetsIds 0 s.generatedToolCallIds m'.toolCalls (setToolCallIds gen 0 s.generatedToolCallIds m'.toolCalls) :=
      setToolCallIds_spec (Nat.zero_le _)
    generalize hr : setToolCallIds gen 0 s.generatedToolCallIds m'.toolCalls = r at hset
    have hlen : s.generatedToolCallIds.length ≤ m'.toolCalls.length := h.length ▸ hext.length_le
    have hchat : Follows { m' with toolCalls := r.1 } r.2 m' :=
      ⟨rfl, rfl, by rw [hset.length]; omega, fun i => by rw [hset.calls, Nat.zero_add]⟩
    obtain ⟨ds, hds, hare⟩ := computeDiffs_ok (h.extends hchat hset.keeps hext)
    refine ⟨_, r.2, ds, hchat, hset.keeps, hare, fun isPartial => ?_⟩
    unfold updateChatMsg
    simp only [hempty, hr, hds]
    exact ⟨rfl, rfl⟩

end Update

/-! ## The filter -/

section FilterFacts

variable {calls : List ToolCall} {isPartial : Bool} {sent : List Nat} {d : MsgDiff} {ds out out' : List MsgDiff} {i : Nat}

theorem contentOf_headers (l : List Nat) : contentOf (l.map (header calls)) = [] :=
  contentOf_eq_nil fun d hd => by
    obtain ⟨j, -, rfl⟩ := List.mem_map.mp hd
    rfl

theorem reasoningOf_headers (l : List Nat) : reasoningOf (l.map (header calls)) = [] :=
  reasoningOf_eq_nil fun d hd => by
    obtain ⟨j, -, rfl⟩ := List.mem_map.mp hd
    rfl

theorem argumentsOf_headers (l : List Nat) (i : Nat) : argumentsOf (l.map (header calls)) i = [] :=
  List.flatMap_eq_nil_iff.mpr fun d hd => by
    obtain ⟨j, -, rfl⟩ := List.mem_map.mp (List.mem_filter.mp hd).1
    rfl

/-- The text and the arguments of two lists of differences are the same. -/
structure SaysSame (ds es : List MsgDiff) : Prop where
  content : contentOf ds = contentOf es
  reasoning : reasoningOf ds = reasoningOf es
  arguments : ∀ i, argumentsOf ds i = argumentsOf es i

theorem SaysSame.append {es ds' es' : List MsgDiff} (h : SaysSame ds es) (h' : SaysSame ds' es') :
    SaysSame (ds ++ ds') (es ++ es') where
  content := by rw [contentOf_append, contentOf_append, h.content, h'.content]
  reasoning := by rw [reasoningOf_append, reasoningOf_append, h.reasoning, h'.reasoning]
  arguments := fun i => by rw [argumentsOf_append, argumentsOf_append, h.arguments, h'.arguments]

theorem saysSame_headers (l : List Nat) : SaysSame (l.map (header calls)) [] :=
  ⟨contentOf_headers l, reasoningOf_headers l, argumentsOf_headers l⟩

theorem SaysSame.rebuilds {m m' : Msg} {es : List MsgDiff} (h : SaysSame ds es) (hr : Rebuilds m m' es) : Rebuilds m m' ds where
  content := by rw [h.content, hr.content]
  reasoning := by rw [h.reasoning, hr.reasoning]
  arguments := fun i => by rw [h.arguments, hr.arguments]

/-- The text and the arguments of a difference get through. -/
theorem ownDiff_saysSame (htext : d.toolCallIndex ≠ none → d.contentDelta = [] ∧ d.reasoningContentDelta = []) :
    SaysSame (ownDiff calls isPartial sent d).1 [d] := by
  unfold ownDiff
  split
  · exact ⟨rfl, rfl, fun _ => rfl⟩
  · rename_i j hidx
    obtain ⟨hcontent, hreasoning⟩ := htext (by rw [hidx]; exact nofun)
    have hnone (hargs : d.toolCallDelta.arguments = []) : SaysSame [] [d] := by
      refine ⟨?_, ?_, fun k => ?_⟩
      · simp [contentOf, hcontent]
      · simp [reasoningOf, hreasoning]
      · simp [argumentsOf_cons, hargs]
    have hname (name id : Text) : SaysSame [{ d with toolCallDelta := { d.toolCallDelta with name := name, id := id } }] [d] :=
      ⟨rfl, rfl, fun k => by rw [argumentsOf_cons, argumentsOf_cons]⟩
    split
    · split
      · exact hname [] []
      · rename_i hargs
        exact hnone (not_not.mp hargs)
    · split
      · exact hname _ _
      · rename_i hargs
        exact hnone (not_not.mp fun hne => hargs (Or.inl hne))

theorem filterDiff_saysSame (htext : d.toolCallIndex ≠ none → d.contentDelta = [] ∧ d.reasoningContentDelta = []) :
    SaysSame (filterDiff calls isPartial sent d).1 [d] :=
  (saysSame_headers _).append (ownDiff_saysSame htext)

theorem filterDiffs_saysSame (htext : ∀ d ∈ ds, d.toolCallIndex ≠ none → d.contentDelta = [] ∧ d.reasoningContentDelta = []) :
    SaysSame (filterDiffs calls isPartial sent ds).1 ds := by
  induction ds generalizing sent with
  | nil => exact ⟨rfl, rfl, fun _ => rfl⟩
  | cons d ds ih =>
    exact (filterDiff_saysSame (htext d List.mem_cons_self)).append (ih fun e he => htext e (List.mem_cons_of_mem _ he))

theorem filterToolCalls_saysSame
    (htext : ∀ d ∈ ds, d.toolCallIndex ≠ none → d.contentDelta = [] ∧ d.reasoningContentDelta = []) :
    SaysSame (filterToolCalls calls isPartial sent ds).1 ds := by
  have h : SaysSame (filterDiffs calls isPartial sent ds).1 ds := filterDiffs_saysSame htext
  unfold filterToolCalls
  cases isPartial with
  | true => exact h
  | false =>
    have hflush : SaysSame ((pending calls (filterDiffs calls false sent ds).2).map (header calls)) [] := saysSame_headers _
    simpa using h.append hflush

/-- What goes out for a call: `before` and `after` say that its name was sent. -/
structure Emits (name id : Text) (before after : Prop) (out : List MsgDiff) : Prop where
  again : before → after ∧ ∀ e ∈ out, e.toolCallDelta.name = []
  first : ¬before → after → ∃ d rest, out = d :: rest ∧ d.toolCallDelta.name = name ∧ d.toolCallDelta.id = id ∧
    (name ≠ [] → d.toolCallDelta.arguments = []) ∧ ∀ e ∈ rest, e.toolCallDelta.name = []
  silent : ¬after → out = []

section Emits

variable {name id : Text} {a b c : Prop}

theorem Emits.refl (a : Prop) : Emits name id a a [] where
  again := fun ha => ⟨ha, fun _ he => absurd he List.not_mem_nil⟩
  first := fun hna ha => absurd ha hna
  silent := fun _ => rfl

theorem Emits.trans (h : Emits name id a b out) (h' : Emits name id b c out') : Emits name id a c (out ++ out') where
  again := fun ha => by
    obtain ⟨hb, hout⟩ := h.again ha
    obtain ⟨hc, hout'⟩ := h'.again hb
    exact ⟨hc, fun e he => (List.mem_append.mp he).elim (hout e) (hout' e)⟩
  first := fun hna hc => by
    by_cases hb : b
    · obtain ⟨d, rest, rfl, hname, hid, hargs, hrest⟩ := h.first hna hb
      exact ⟨d, rest ++ out', rfl, hname, hid, hargs,
        fun e he => (List.mem_append.mp he).elim (hrest e) ((h'.again hb).2 e)⟩
    · rw [h.silent hb, List.nil_append]
      exact h'.first hb hc
  silent := fun hnc => by
    have hnb : ¬b := fun hb => hnc (h'.again hb).1
    rw [h.silent hnb, h'.silent hnc, List.nil_append]

theorem Emits.congr (h : Emits name id a b out) (hb : b ↔ c) : Emits name id a c out := propext hb ▸ h

end Emits

theorem nodup_pending (p : Nat → Bool) : ((pending calls sent).filter p).Nodup :=
  (List.nodup_range.filter _).filter _

theorem lt_of_name (h : (calls.getD i {}).name ≠ []) : i < calls.length := by
  refine not_le.mp fun hle => h ?_
  rw [List.getD_eq_getElem?_getD, List.getElem?_eq_none hle]
  rfl

theorem mem_pending : i ∈ pending calls sent ↔ i ∉ sent ∧ (calls.getD i {}).name ≠ [] := by
  unfold pending
  rw [List.mem_filter, List.mem_range, decide_eq_true_iff]
  constructor
  · exact fun h => h.2
  · exact fun h => ⟨lt_of_name h.2, h⟩

theorem diffsAt_headers {l : List Nat} (hl : l.Nodup) (i : Nat) :
    diffsAt (l.map (header calls)) i = if i ∈ l then [header calls i] else [] := by
  induction l with
  | nil => rfl
  | cons j l ih =>
    obtain ⟨hj, hl⟩ := List.nodup_cons.mp hl
    have hcons : diffsAt ((j :: l).map (header calls)) i =
        (if j = i then [header calls j] else []) ++ diffsAt (l.map (header calls)) i := by
      rw [List.map_cons, ← List.singleton_append, diffsAt_append]
      congr 1
      unfold diffsAt
      rw [List.filter_singleton]
      simp [header]
    rw [hcons, ih hl]
    rcases eq_or_ne j i with rfl | hne
    · simp [hj]
    · simp [hne, hne.symm]

theorem flush_emits (p : Nat → Bool) :
    Emits (calls.getD i {}).name (calls.getD i {}).id (i ∈ sent) (i ∈ sent ++ (pending calls sent).filter p)
      (diffsAt (((pending calls sent).filter p).map (header calls)) i) := by
  rw [diffsAt_headers (nodup_pending p), List.mem_append]
  split
  · rename_i hmem
    have hnot := (mem_pending.mp (List.mem_filter.mp hmem).1).1
    exact ⟨fun hsent => absurd hsent hnot,
      fun _ _ => ⟨_, [], rfl, rfl, rfl, fun _ => rfl, fun _ he => absurd he List.not_mem_nil⟩,
      fun hn => absurd (Or.inr hmem) hn⟩
  · rename_i hmem
    exact (Emits.refl _).congr (by simp only [hmem, or_false])

theorem mem_flushedBy : i ∈ flushedBy calls sent d ↔
    i ∉ sent ∧ (calls.getD i {}).name ≠ [] ∧ (d.toolCallIndex ≠ some i ∨ d.toolCallDelta.arguments ≠ []) := by
  unfold flushedBy
  rw [List.mem_filter, mem_pending, decide_eq_true_iff, and_assoc]

/-- The difference itself sends the name of its call if it has arguments, or at the end. -/
theorem mem_ownDiff : i ∈ (ownDiff calls isPartial sent d).2 ↔
    i ∈ sent ∨ d.toolCallIndex = some i ∧ (d.toolCallDelta.arguments ≠ [] ∨ ¬isPartial) := by
  unfold ownDiff
  split
  · rename_i hidx
    simp [hidx]
  · rename_i j hidx
    rw [hidx, Option.some.injEq]
    split
    · rename_i hj
      have hdrop : i ∈ sent ↔ i ∈ sent ∨ j = i ∧ (d.toolCallDelta.arguments ≠ [] ∨ ¬isPartial) :=
        ⟨Or.inl, fun h => h.elim id fun ⟨hji, _⟩ => hji ▸ hj⟩
      split
      · exact hdrop
      · exact hdrop
    · split
      · rename_i hsend
        rw [List.mem_append, List.mem_singleton, eq_comm (a := i)]
        exact or_congr_right ⟨fun h => ⟨h, hsend⟩, fun h => h.1⟩
      · rename_i hsend
        exact ⟨Or.inl, fun h => h.elim id fun h => absurd h.2 hsend⟩

/-- When a difference sends the name of call `i`. -/
def Fires (calls : List ToolCall) (isPartial : Bool) (d : MsgDiff) (i : Nat) : Prop :=
  (calls.getD i {}).name ≠ [] ∧ (d.toolCallIndex ≠ some i ∨ d.toolCallDelta.arguments ≠ []) ∨
    d.toolCallIndex = some i ∧ (d.toolCallDelta.arguments ≠ [] ∨ ¬isPartial)

theorem mem_filterDiff : i ∈ (filterDiff calls isPartial sent d).2 ↔ i ∈ sent ∨ Fires calls isPartial d i := by
  unfold filterDiff Fires
  rw [mem_ownDiff, List.mem_append, mem_flushedBy]
  tauto

theorem mem_filterDiffs : i ∈ (filterDiffs calls isPartial sent ds).2 ↔ i ∈ sent ∨ ∃ d ∈ ds, Fires calls isPartial d i := by
  induction ds generalizing sent with
  | nil => simp [filterDiffs]
  | cons d ds ih =>
    show i ∈ (filterDiffs calls isPartial (filterDiff calls isPartial sent d).2 ds).2 ↔ _
    rw [ih, mem_filterDiff, List.exists_mem_cons_iff, or_assoc]

theorem diffsAt_singleton (d : MsgDiff) (i : Nat) : diffsAt [d] i = if d.toolCallIndex = some i then [d] else [] := by
  unfold diffsAt
  rw [List.filter_singleton]
  simp

/-- The difference itself announces its call if nothing was sent for it, and has no name otherwise. -/
theorem ownDiff_emits (hflushed : (calls.getD i {}).name ≠ [] → d.toolCallDelta.arguments ≠ [] → i ∈ sent) :
    Emits (calls.getD i {}).name (calls.getD i {}).id (i ∈ sent) (i ∈ (ownDiff calls isPartial sent d).2)
      (diffsAt (ownDiff calls isPartial sent d).1 i) := by
  rcases eq_or_ne d.toolCallIndex (some i) with hidx | hne
  · unfold ownDiff
    rw [hidx]
    dsimp only
    split
    · rename_i hsent
      split
      · rw [diffsAt_singleton, if_pos rfl]
        exact ⟨fun _ => ⟨hsent, fun e he => by rw [List.mem_singleton.mp he]⟩, fun hn => absurd hsent hn,
          fun hn => absurd hsent hn⟩
      · exact Emits.refl _
    · rename_i hsent
      split
      · rw [diffsAt_singleton, if_pos rfl]
        refine ⟨fun h => absurd h hsent, fun _ _ => ⟨_, [], rfl, rfl, rfl, fun hname => ?_, fun _ he => nomatch he⟩, fun hn => ?_⟩
        · exact not_not.mp fun hargs => hsent (hflushed hname hargs)
        · exact absurd (List.mem_append_right _ (List.mem_singleton_self i)) hn
      · exact Emits.refl _
  · have hnone : diffsAt (ownDiff calls isPartial sent d).1 i = [] := by
      unfold ownDiff
      split
      · rename_i hidx
        rw [diffsAt_singleton, if_neg hne]
      · split
        · split
          · rw [diffsAt_singleton, if_neg hne]
          · rfl
        · split
          · rw [diffsAt_singleton, if_neg hne]
          · rfl
    rw [hnone]
    exact (Emits.refl _).congr (by rw [mem_ownDiff]; tauto)

theorem filterDiff_emits : Emits (calls.getD i {}).name (calls.getD i {}).id (i ∈ sent)
    (i ∈ (filterDiff calls isPartial sent d).2) (diffsAt (filterDiff calls isPartial sent d).1 i) := by
  unfold filterDiff
  rw [diffsAt_append]
  refine (flush_emits _).trans (ownDiff_emits fun hname hargs => ?_)
  by_cases hsent : i ∈ sent
  · exact List.mem_append_left _ hsent
  · exact List.mem_append_right _ (mem_flushedBy.mpr ⟨hsent, hname, Or.inr hargs⟩)

theorem filterDiffs_emits : Emits (calls.getD i {}).name (calls.getD i {}).id (i ∈ sent)
    (i ∈ (filterDiffs calls isPartial sent ds).2) (diffsAt (filterDiffs calls isPartial sent ds).1 i) := by
  induction ds generalizing sent with
  | nil => exact Emits.refl _
  | cons d ds ih =>
    unfold filterDiffs
    rw [diffsAt_append]
    exact filterDiff_emits.trans ih

theorem filterToolCalls_emits : Emits (calls.getD i {}).name (calls.getD i {}).id (i ∈ sent)
    (i ∈ (filterToolCalls calls isPartial sent ds).2) (diffsAt (filterToolCalls calls isPartial sent ds).1 i) := by
  unfold filterToolCalls
  cases isPartial with
  | true => exact filterDiffs_emits
  | false =>
    dsimp only
    rw [if_neg Bool.false_ne_true, diffsAt_append]
    have hall : (pending calls (filterDiffs calls false sent ds).2).filter (fun _ => true) =
        pending calls (filterDiffs calls false sent ds).2 := List.filter_true ..
    exact filterDiffs_emits.trans (hall ▸ flush_emits fun _ => true)

/-- The names that a partial update sends. -/
theorem mem_filterToolCalls_partial :
    i ∈ (filterToolCalls calls true sent ds).2 ↔ i ∈ sent ∨ ∃ d ∈ ds, Fires calls true d i :=
  mem_filterDiffs

theorem lt_of_mem_filterToolCalls (hidx : ∀ d ∈ ds, ∀ i ∈ d.toolCallIndex, i < calls.length)
    (h : i ∈ (filterToolCalls calls isPartial sent ds).2) : i ∈ sent ∨ i < calls.length := by
  have hloop (hmem : i ∈ (filterDiffs calls isPartial sent ds).2) : i ∈ sent ∨ i < calls.length :=
    (mem_filterDiffs.mp hmem).imp_right fun ⟨d, hd, hfires⟩ =>
      hfires.elim (fun hname => lt_of_name hname.1) fun hown => hidx d hd i hown.1
  unfold filterToolCalls at h
  cases isPartial with
  | true => exact hloop h
  | false =>
    rcases List.mem_append.mp h with h | h
    · exact hloop h
    · exact Or.inr (lt_of_name (mem_pending.mp h).2)

/-- The last update sends all names. -/
theorem mem_filterToolCalls_last (hname : (calls.getD i {}).name ≠ []) : i ∈ (filterToolCalls calls false sent ds).2 := by
  show i ∈ (filterDiffs calls false sent ds).2 ++ pending calls (filterDiffs calls false sent ds).2
  rw [List.mem_append, mem_pending]
  by_cases h : i ∈ (filterDiffs calls false sent ds).2
  · exact Or.inl h
  · exact Or.inr ⟨h, hname⟩

end FilterFacts

/-! ## Runs -/

section Runs

variable {start last m m' chat : Msg} {parts : List Msg} {ids ids' : List Text} {sent : List Nat}
  {ds out : List MsgDiff} {s : TaskState} {i : Nat} {chat' : Msg}

/-- What stays true from one message of a run to all later ones. -/
structure Msg.Leads (m m' : Msg) : Prop where
  length : m.toolCalls.length ≤ m'.toolCalls.length
  name : ∀ i, m.nameAt i <+: m'.nameAt i
  arguments : ∀ i, m.argumentsAt i ≠ [] → m'.argumentsAt i ≠ []
  final : ∀ i, m.argumentsAt i ≠ [] ∨ i + 1 < m.toolCalls.length → m'.nameAt i = m.nameAt i

theorem Msg.Leads.trans {m'' : Msg} (h : m.Leads m') (h' : m'.Leads m'') : m.Leads m'' where
  length := h.length.trans h'.length
  name := fun i => (h.name i).trans (h'.name i)
  arguments := fun i hi => h'.arguments i (h.arguments i hi)
  final := fun i hi => by
    have hnext : m'.argumentsAt i ≠ [] ∨ i + 1 < m'.toolCalls.length :=
      hi.imp (h.arguments i) fun hlt => hlt.trans_le h.length
    exact (h'.final i hnext).trans (h.final i hi)

theorem nameAt_eq {c : ToolCall} (h : m.toolCalls[i]? = some c) : m.nameAt i = c.name := by
  unfold Msg.nameAt
  rw [List.getD_eq_getElem?_getD, h]
  rfl

theorem argumentsAt_eq {c : ToolCall} (h : m.toolCalls[i]? = some c) : m.argumentsAt i = c.arguments := by
  unfold Msg.argumentsAt
  rw [h]
  rfl

theorem nameAt_eq_nil (h : m.toolCalls.length ≤ i) : m.nameAt i = [] := by
  unfold Msg.nameAt
  rw [List.getD_eq_getElem?_getD, List.getElem?_eq_none h]
  rfl

theorem argumentsAt_eq_nil (h : m.toolCalls.length ≤ i) : m.argumentsAt i = [] := by
  unfold Msg.argumentsAt
  rw [List.getElem?_eq_none h]
  rfl

theorem Msg.Grows.leads (h : m.Grows m') : m.Leads m' := by
  -- call `i` is behind the last one, in front of it, or the last one
  have hcases (i : Nat) : m.toolCalls.length ≤ i ∨ (i + 1 < m.toolCalls.length ∧ m'.toolCalls[i]? = m.toolCalls[i]?) ∨
      ∃ c c', m.toolCalls[i]? = some c ∧ m'.toolCalls[i]? = some c' ∧ c.Extends c' ∧ (c.arguments ≠ [] → c'.name = c.name) ∧
        ¬i + 1 < m.toolCalls.length := by
    rcases Nat.lt_or_ge i m.toolCalls.length with hlt | hge
    · rcases Nat.lt_or_ge (i + 1) m.toolCalls.length with hlt' | hge'
      · exact Or.inr (Or.inl ⟨hlt', h.earlier i hlt'⟩)
      · obtain rfl : i = m.toolCalls.length - 1 := by omega
        have hc := List.getElem?_eq_getElem hlt
        obtain ⟨c', hc', hext⟩ := h.last _ hc
        exact Or.inr (Or.inr ⟨_, c', hc, hc', hext, h.settled _ hc c' hc', Nat.not_lt.mpr hge'⟩)
    · exact Or.inl hge
  refine ⟨h.length_le, fun i => ?_, fun i hargs => ?_, fun i hi => ?_⟩
  · rcases hcases i with hle | ⟨-, heq⟩ | ⟨c, c', hc, hc', hext, -, -⟩
    · rw [nameAt_eq_nil hle]
      exact List.nil_prefix
    · unfold Msg.nameAt
      rw [List.getD_eq_getElem?_getD, List.getD_eq_getElem?_getD, heq]
    · rw [nameAt_eq hc, nameAt_eq hc']
      exact hext.name
  · rcases hcases i with hle | ⟨-, heq⟩ | ⟨c, c', hc, hc', hext, -, -⟩
    · exact absurd (argumentsAt_eq_nil hle) hargs
    · unfold Msg.argumentsAt at hargs ⊢
      rwa [heq]
    · rw [argumentsAt_eq hc] at hargs
      rw [argumentsAt_eq hc']
      exact fun hnil => hargs (List.prefix_nil.mp (hnil ▸ hext.arguments))
  · rcases hcases i with hle | ⟨-, heq⟩ | ⟨c, c', hc, hc', -, hname, hlast⟩
    · rcases hi with hargs | hlt
      · exact absurd (argumentsAt_eq_nil hle) hargs
      · omega
    · unfold Msg.nameAt
      rw [List.getD_eq_getElem?_getD, List.getD_eq_getElem?_getD, heq]
    · rw [argumentsAt_eq hc] at hi
      rw [nameAt_eq hc, nameAt_eq hc']
      exact hname (hi.resolve_right hlast)

theorem leads_last (h : (m :: parts ++ [last]).IsChain Msg.Grows) : m.Leads last := by
  induction parts generalizing m with
  | nil => exact (List.isChain_pair.mp h).leads
  | cons m' parts ih =>
    obtain ⟨hm, hrest⟩ := List.isChain_cons_cons.mp h
    exact hm.leads.trans (ih hrest)

theorem Follows.name (h : Follows chat ids m) (i : Nat) : (chat.toolCalls.getD i {}).name = m.nameAt i := by
  unfold Msg.nameAt
  rw [List.getD_eq_getElem?_getD, List.getD_eq_getElem?_getD, h.calls]
  cases m.toolCalls[i]? <;> rfl

theorem Follows.id (h : Follows chat ids m) (i : Nat) : (chat.toolCalls.getD i {}).id = ids.getD i [] := by
  rw [List.getD_eq_getElem?_getD, h.calls]
  cases hget : m.toolCalls[i]? with
  | some c => rfl
  | none =>
    have hle : ids.length ≤ i := h.length ▸ List.getElem?_eq_none_iff.mp hget
    rw [List.getD_eq_getElem?_getD, List.getElem?_eq_none hle]
    rfl

theorem Follows.arguments (h : Follows chat ids m) (i : Nat) : chat.argumentsAt i = m.argumentsAt i := by
  unfold Msg.argumentsAt
  rw [h.calls]
  cases m.toolCalls[i]? <;> rfl

theorem Follows.callAt_eq (h : Follows chat ids m) (h' : Follows chat' ids' m') (hids : ids <+: ids')
    (j : Nat) : chat.toolCalls[j]? = chat'.toolCalls[j]? ↔ m.callAt j = m'.callAt j := by
  unfold Msg.callAt
  rw [h.calls, h'.calls]
  cases hm : m.toolCalls[j]? with
  | none => cases m'.toolCalls[j]? <;> simp
  | some c =>
    have hj : j < ids.length := h.length ▸ (List.getElem?_eq_some_iff.mp hm).1
    cases m'.toolCalls[j]? with
    | none => simp
    | some c' => simp only [Option.map_some, Option.some.injEq, ToolCall.mk.injEq, Prod.mk.injEq,
        getD_of_prefix hids hj, and_true]

/-- The differences of an update are all about call `i` if nothing else has changed. -/
theorem only_iff (h : Follows chat ids m) (h' : Follows chat' ids' m') (hids : ids <+: ids')
    (hd : AreDiffs chat chat' ds) (i : Nat) : (∀ d ∈ ds, d.toolCallIndex = some i) ↔
      m.content = m'.content ∧ m.reasoningContent = m'.reasoningContent ∧ ∀ j ≠ i, m.callAt j = m'.callAt j := by
  rw [hd.only, h.content, h'.content, h.reasoning, h'.reasoning]
  simp only [h.callAt_eq h' hids]

/-- A name that a difference sends is final, if a name that is not has the update for itself. -/
theorem fires_final (h : Follows chat ids m) (h' : Follows chat' ids' m') (hids : ids <+: ids')
    (hd : AreDiffs chat chat' ds) (hlead : m'.Leads last) (halone : NameAlone last m m') {d : MsgDiff}
    (hmem : d ∈ ds) (hfires : Fires chat'.toolCalls true d i) : m'.nameAt i = last.nameAt i := by
  by_contra hne
  have hargs (hidx : d.toolCallIndex = some i) : d.toolCallDelta.arguments = [] := by
    by_contra hargs
    refine hne (hlead.final i (Or.inl ?_)).symm
    rw [← h'.arguments, ← hd.rebuilds.arguments]
    refine List.append_ne_nil_of_right_ne_nil _ fun hnil => hargs ?_
    exact List.flatMap_eq_nil_iff.mp hnil d (List.mem_filter.mpr ⟨hmem, by simpa using hidx⟩)
  unfold Fires at hfires
  rw [h'.name] at hfires
  rcases hfires with ⟨hname, hother⟩ | ⟨hidx, hsend⟩
  · have hidx : d.toolCallIndex ≠ some i := fun hidx => (hother.resolve_left (not_not_intro hidx)) (hargs hidx)
    have hlt : i < m'.toolCalls.length := not_le.mp fun hle => hname (nameAt_eq_nil hle)
    have hlast : ¬i + 1 < m'.toolCalls.length := fun hlt => hne (hlead.final i (Or.inr hlt)).symm
    obtain rfl : i = m'.toolCalls.length - 1 := by omega
    exact hidx ((only_iff h h' hids hd _).mpr (halone hname hne) d hmem)
  · exact hsend.elim (fun hne' => hne' (hargs hidx)) fun hn => hn rfl

/-- What has been sent for the calls of `m`. -/
structure Sends (ids : List Text) (m : Msg) (sent : List Nat) (ds : List MsgDiff) : Prop where
  announced : ∀ i ∈ sent, ∃ d rest, diffsAt ds i = d :: rest ∧ d.toolCallDelta.name <+: m.nameAt i ∧
    d.toolCallDelta.id = ids.getD i [] ∧ (d.toolCallDelta.name ≠ [] → d.toolCallDelta.arguments = []) ∧
      ∀ e ∈ rest, e.toolCallDelta.name = []
  silent : ∀ i, i ∉ sent → diffsAt ds i = []
  bound : ∀ i ∈ sent, i < m.toolCalls.length

def SentFinal (last : Msg) (sent : List Nat) (ds : List MsgDiff) : Prop :=
  ∀ i ∈ sent, ∀ d ∈ (diffsAt ds i).head?, d.toolCallDelta.name = last.nameAt i

variable {sent' : List Nat}

structure Sending (ids' : List Text) (m' : Msg) (sent sent' : List Nat) (out : List MsgDiff) : Prop where
  emits : ∀ i, Emits (m'.nameAt i) (ids'.getD i []) (i ∈ sent) (i ∈ sent') (diffsAt out i)
  bound : ∀ i ∈ sent', i ∈ sent ∨ i < m'.toolCalls.length

theorem Sends.append (h : Sends ids m sent ds) (hlen : ids.length = m.toolCalls.length) (hlead : m.Leads m')
    (hids : ids <+: ids') (he : Sending ids' m' sent sent' out) : Sends ids' m' sent' (ds ++ out) where
  announced := fun i hi => by
    rw [diffsAt_append]
    by_cases hsent : i ∈ sent
    · obtain ⟨d, rest, hds, hname, hid, hargs, hrest⟩ := h.announced i hsent
      refine ⟨d, rest ++ diffsAt out i, by rw [hds]; rfl, hname.trans (hlead.name i), ?_, hargs, fun e hmem => ?_⟩
      · rw [hid, getD_of_prefix hids (hlen ▸ h.bound i hsent)]
      · exact (List.mem_append.mp hmem).elim (hrest e) (((he.emits i).again hsent).2 e)
    · obtain ⟨d, rest, hout, hname, hid, hargs, hrest⟩ := (he.emits i).first hsent hi
      refine ⟨d, rest, ?_, hname ▸ List.prefix_refl _, hid, fun hne => hargs (hname ▸ hne), hrest⟩
      rw [h.silent i hsent, hout, List.nil_append]
  silent := fun i hi => by
    have hsent : i ∉ sent := fun hsent => hi ((he.emits i).again hsent).1
    rw [diffsAt_append, h.silent i hsent, (he.emits i).silent hi, List.append_nil]
  bound := fun i hi => (he.bound i hi).elim (fun hsent => (h.bound i hsent).trans_le hlead.length) fun hlt => hlt

theorem SentFinal.of_append (he : Sending ids' m' sent sent' out)
    (hf : SentFinal last sent' (ds ++ out)) : SentFinal last sent ds := by
  intro i hi d hd
  refine hf i ((he.emits i).again hi).1 d ?_
  rw [diffsAt_append, List.head?_append, Option.mem_def.mp hd]
  rfl

theorem SentFinal.append (h : Sends ids m sent ds) (he : Sending ids' m' sent sent' out)
    (hnew : ∀ i ∈ sent', i ∉ sent → m'.nameAt i = last.nameAt i) (hf : SentFinal last sent ds) :
    SentFinal last sent' (ds ++ out) := by
  intro i hi d hd
  rw [diffsAt_append] at hd
  by_cases hsent : i ∈ sent
  · obtain ⟨d', rest, hds, -⟩ := h.announced i hsent
    rw [hds] at hd
    exact hf i hsent d (by rw [hds]; exact hd)
  · obtain ⟨d', rest, hout, hname, -⟩ := (he.emits i).first hsent hi
    rw [h.silent i hsent, hout] at hd
    obtain rfl := Option.some.inj hd
    exact hname.trans (hnew i hi hsent)

/-- The state and the differences behind the updates up to `m`. -/
structure Streamed (start m : Msg) (s : TaskState) (ds : List MsgDiff) : Prop where
  follows : Follows s.chatMsg s.generatedToolCallIds m
  rebuilds : Rebuilds start s.chatMsg ds

theorem streamed_start (h : start.toolCalls = []) : Streamed start start { chatMsg := start } [] where
  follows := ⟨rfl, rfl, by rw [h]; rfl, fun i => by rw [h]; rfl⟩
  rebuilds := Rebuilds.refl start

theorem streamUpdate_plain (gen : Nat → Text) (h : Streamed start m s ds) (hg : m.Grows m') (isPartial : Bool) :
    ∃ s' ds', streamUpdate gen false isPartial (s, ds) m' = .ok (s', ds') ∧ Streamed start m' s' ds' := by
  obtain ⟨chat, ids, new, hfollows, -, hd, hrun⟩ := updateChatMsg_ok gen h.follows hg.toExtends
  refine ⟨{ s with chatMsg := chat, generatedToolCallIds := ids }, ds ++ new, ?_, hfollows, h.rebuilds.trans hd.rebuilds⟩
  unfold streamUpdate
  rw [(hrun isPartial).1]
  rfl

structure FilterStep (start m m' : Msg) (isPartial : Bool) (s s' : TaskState) (ds ds' : List MsgDiff) : Prop where
  streamed : Streamed start m' s' ds'
  sends : Sends s'.generatedToolCallIds m' s'.sentToolCallNames ds'
  final_partial : isPartial = true → ∀ last, m'.Leads last →
    (SentFinal last s'.sentToolCallNames ds' ↔ SentFinal last s.sentToolCallNames ds ∧ NameAlone last m m')
  final_last : isPartial = false → (SentFinal m' s'.sentToolCallNames ds' ↔ SentFinal m' s.sentToolCallNames ds)
  all_sent : isPartial = false → ∀ i, m'.nameAt i ≠ [] → i ∈ s'.sentToolCallNames

theorem streamUpdate_filter (gen : Nat → Text) (h : Streamed start m s ds) (hs : Sends s.generatedToolCallIds m s.sentToolCallNames ds)
    (hg : m.Grows m') (isPartial : Bool) :
    ∃ s' ds', streamUpdate gen true isPartial (s, ds) m' = .ok (s', ds') ∧ FilterStep start m m' isPartial s s' ds ds' := by
  obtain ⟨chat, ids, new, hfollows, hids, hd, hrun⟩ := updateChatMsg_ok gen h.follows hg.toExtends
  have hsame : SaysSame (filterToolCalls chat.toolCalls isPartial s.sentToolCallNames new).1 new :=
    filterToolCalls_saysSame hd.text
  generalize hr : filterToolCalls chat.toolCalls isPartial s.sentToolCallNames new = r at hsame
  have hending : Sending ids m' s.sentToolCallNames r.2 r.1 := by
    refine ⟨fun i => ?_, fun i hi => ?_⟩
    · rw [← hr, ← hfollows.name, ← hfollows.id]
      exact filterToolCalls_emits
    · rw [← hfollows.calls_length]
      exact lt_of_mem_filterToolCalls hd.index (hr ▸ hi)
  have hsends := hs.append h.follows.length hg.leads hids hending
  refine ⟨{ chatMsg := chat, generatedToolCallIds := ids, sentToolCallNames := r.2 }, ds ++ r.1, ?_, ?_⟩
  · unfold streamUpdate
    rw [(hrun isPartial).2, hr]
    rfl
  refine ⟨⟨hfollows, h.rebuilds.trans (hsame.rebuilds hd.rebuilds)⟩, hsends, ?_, ?_, ?_⟩
  · rintro rfl last hlead
    have hmem (i : Nat) : i ∈ r.2 ↔ i ∈ s.sentToolCallNames ∨ ∃ d ∈ new, Fires chat.toolCalls true d i :=
      hr ▸ mem_filterToolCalls_partial
    constructor
    · refine fun hf => ⟨SentFinal.of_append hending hf, fun hname hne => ?_⟩
      refine (only_iff h.follows hfollows hids hd _).mp fun d hdmem => ?_
      by_contra hidx
      have hsent : m'.toolCalls.length - 1 ∈ r.2 :=
        (hmem _).mpr (Or.inr ⟨d, hdmem, Or.inl ⟨by rw [hfollows.name]; exact hname, Or.inl hidx⟩⟩)
      obtain ⟨d', rest, hds, hpre, -⟩ := hsends.announced _ hsent
      have hfinal := hf _ hsent d' (by rw [hds]; rfl)
      have hle := hpre.length_le
      rw [hfinal] at hle
      exact hne ((hlead.name _).eq_of_length_le hle)
    · rintro ⟨hf, halone⟩
      refine SentFinal.append hs hending (fun i hi hsent => ?_) hf
      obtain ⟨d, hdmem, hfires⟩ := ((hmem i).mp hi).resolve_left hsent
      exact fires_final h.follows hfollows hids hd hlead halone hdmem hfires
  · rintro rfl
    exact ⟨SentFinal.of_append hending, SentFinal.append hs hending fun _ _ _ => rfl⟩
  · rintro rfl i hname
    rw [← hr]
    exact mem_filterToolCalls_last (by rw [hfollows.name]; exact hname)

/-- Partial updates without the filter. -/
theorem plain_parts (gen : Nat → Text) (h : Streamed start m s ds) (hchain : (m :: parts ++ [last]).IsChain Msg.Grows) :
    ∃ s' ds' m', parts.foldlM (streamUpdate gen false true) (s, ds) = .ok (s', ds') ∧ Streamed start m' s' ds' ∧
      m'.Grows last := by
  induction parts generalizing m s ds with
  | nil => exact ⟨s, ds, m, rfl, h, List.isChain_pair.mp hchain⟩
  | cons m' parts ih =>
    obtain ⟨hm, hrest⟩ := List.isChain_cons_cons.mp hchain
    obtain ⟨s₁, ds₁, hrun, h₁⟩ := streamUpdate_plain gen h hm true
    obtain ⟨s₂, ds₂, m₂, hrun₂, h₂⟩ := ih h₁ hrest
    refine ⟨s₂, ds₂, m₂, ?_, h₂⟩
    rw [List.foldlM_cons, hrun]
    exact hrun₂

/-- Partial updates with the filter: the names that were sent are final if every name was alone. -/
theorem filter_parts (gen : Nat → Text) (h : Streamed start m s ds) (hs : Sends s.generatedToolCallIds m s.sentToolCallNames ds)
    (hchain : (m :: parts ++ [last]).IsChain Msg.Grows) :
    ∃ s' ds' m', parts.foldlM (streamUpdate gen true true) (s, ds) = .ok (s', ds') ∧ Streamed start m' s' ds' ∧
      m'.Grows last ∧ Sends s'.generatedToolCallIds m' s'.sentToolCallNames ds' ∧
      (SentFinal last s'.sentToolCallNames ds' ↔
        SentFinal last s.sentToolCallNames ds ∧ (m :: parts).IsChain (NameAlone last)) := by
  induction parts generalizing m s ds with
  | nil =>
    exact ⟨s, ds, m, rfl, h, List.isChain_pair.mp hchain, hs, by simp⟩
  | cons m' parts ih =>
    obtain ⟨hm, hrest⟩ := List.isChain_cons_cons.mp hchain
    obtain ⟨s₁, ds₁, hrun, h₁⟩ := streamUpdate_filter gen h hs hm true
    obtain ⟨s₂, ds₂, m₂, hrun₂, h₂, hgrow, hs₂, hiff⟩ := ih h₁.streamed h₁.sends hrest
    refine ⟨s₂, ds₂, m₂, ?_, h₂, hgrow, hs₂, ?_⟩
    · rw [List.foldlM_cons, hrun]
      exact hrun₂
    · rw [hiff, h₁.final_partial rfl last (leads_last hrest), List.isChain_cons_cons, and_assoc]

/-- Behind the last update the calls are announced if the names that were sent are final. -/
theorem announces_iff (h : Follows chat ids last) (hs : Sends ids last sent ds) (hall : ∀ i, last.nameAt i ≠ [] → i ∈ sent) :
    Announces chat ds ↔ SentFinal last sent ds := by
  constructor
  · intro ha i hi d hd
    obtain ⟨d', rest, hds, hpre, -⟩ := hs.announced i hi
    rw [hds] at hd
    obtain rfl := Option.some.inj hd
    by_cases hname : last.nameAt i = []
    · rw [hname] at hpre ⊢
      exact List.prefix_nil.mp hpre
    · have hlt : i < chat.toolCalls.length := h.calls_length ▸ hs.bound i hi
      have hget := List.getElem?_eq_getElem hlt
      have hcall : chat.toolCalls[i].name = last.nameAt i := by
        rw [← h.name, List.getD_eq_getElem?_getD, hget]
        rfl
      obtain ⟨d₂, rest₂, hds₂, hdelta, -⟩ := ha i _ hget (hcall ▸ hname)
      obtain ⟨rfl, -⟩ := List.cons.inj (hds.symm.trans hds₂)
      rw [hdelta]
      exact hcall
  · intro hf i c hc hname
    have hcname : c.name = last.nameAt i := by
      rw [← h.name, List.getD_eq_getElem?_getD, Option.mem_def.mp hc]
      rfl
    have hcid : c.id = ids.getD i [] := by
      rw [← h.id, List.getD_eq_getElem?_getD, Option.mem_def.mp hc]
      rfl
    have hsent := hall i (hcname ▸ hname)
    obtain ⟨d, rest, hds, -, hid, hargs, hrest⟩ := hs.announced i hsent
    have hdname : d.toolCallDelta.name = c.name := (hf i hsent d (by rw [hds]; rfl)).trans hcname.symm
    exact ⟨d, rest, hds, ToolCall.ext hdname (hargs (hdname ▸ hname)) (hid.trans hcid.symm), hrest⟩

end Runs

/-- Along messages that grow no update throws and the differences rebuild the last message.  The filter announces the
calls rightly exactly if no update shows a name that is not final together with something else. -/
theorem streamsRight_iff (gen : Nat → Text) (start : Msg) (parts : List Msg) (last : Msg) (hstart : start.toolCalls = [])
    (hgrow : (start :: parts ++ [last]).IsChain Msg.Grows) :
    StreamsRight gen start parts last ↔ (start :: parts).IsChain (NameAlone last) := by
  have hinit := streamed_start hstart
  have hnone : Sends [] start [] [] := ⟨fun _ hi => absurd hi List.not_mem_nil, fun _ _ => rfl, fun _ hi => absurd hi List.not_mem_nil⟩
  obtain ⟨s, ds, m, hrun, h, hg, hs, hiff⟩ := filter_parts gen hinit hnone hgrow
  obtain ⟨s', ds', hlast, hstep⟩ := streamUpdate_filter gen h hs hg false
  have hfiltered : stream gen true start parts last = .ok (s', ds') := by
    unfold stream
    rw [hrun]
    exact hlast
  have hannounce : Announces s'.chatMsg ds' ↔ (start :: parts).IsChain (NameAlone last) := by
    rw [announces_iff hstep.streamed.follows hstep.sends (hstep.all_sent rfl), hstep.final_last rfl, hiff]
    exact and_iff_right fun _ hi => absurd hi List.not_mem_nil
  constructor
  · intro hright
    obtain ⟨s₂, ds₂, hrun₂, -, -, ha⟩ := hright true
    obtain ⟨rfl, rfl⟩ := Prod.mk.inj (Except.ok.inj (hfiltered.symm.trans hrun₂))
    exact hannounce.mp (ha rfl)
  · intro halone filter
    cases filter with
    | true => exact ⟨s', ds', hfiltered, hstep.streamed.follows, hstep.streamed.rebuilds, fun _ => hannounce.mpr halone⟩
    | false =>
      obtain ⟨s₁, ds₁, m₁, hrun₁, h₁, hg₁⟩ := plain_parts gen hinit hgrow
      obtain ⟨s₂, ds₂, hrun₂, h₂⟩ := streamUpdate_plain gen h₁ hg₁ false
      refine ⟨s₂, ds₂, ?_, h₂.follows, h₂.rebuilds, nofun⟩
      unfold stream
      rw [hrun₁]
      exact hrun₂

/-- A message without calls grows by anything that keeps its text. -/
theorem Msg.Grows.of_nil {m m' : Msg} (hcalls : m.toolCalls = []) (hcontent : m.content <+: m'.content)
    (hreasoning : m.reasoningContent <+: m'.reasoningContent) : m.Grows m' where
  content := hcontent
  reasoning := hreasoning
  earlier := fun i hi => by simp [hcalls] at hi
  last := fun c hc => by simp [hcalls] at hc
  settled := fun c hc => by simp [hcalls] at hc

/-- A message with one call that has no arguments grows by a longer name. -/
theorem Msg.Grows.of_singleton {m m' : Msg} {c c' : ToolCall} {cs : List ToolCall} (hcalls : m.toolCalls = [c])
    (hcalls' : m'.toolCalls = c' :: cs) (hcontent : m.content <+: m'.content)
    (hreasoning : m.reasoningContent <+: m'.reasoningContent) (hname : c.name <+: c'.name) (hargs : c.arguments = []) :
    m.Grows m' where
  content := hcontent
  reasoning := hreasoning
  earlier := fun i hi => by simp [hcalls] at hi
  last := fun d hd => by
    obtain rfl : c = d := by simpa [hcalls] using hd
    exact ⟨c', by simp [hcalls, hcalls'], hargs ▸ List.nil_prefix, hname⟩
  settled := fun d hd => by
    obtain rfl : c = d := by simpa [hcalls] using hd
    exact fun _ _ hne => absurd hargs hne

/-- A message with text, then the first part of a name, then the whole name with arguments. -/
theorem streamsRight_iff_call :
    StreamsRight (fun _ => [7]) {} [{ content := [1] }, { content := [1], toolCalls := [{ name := [2] }] }]
      { content := [1], toolCalls := [{ name := [2, 3], arguments := [4] }] } ↔
    List.IsChain (NameAlone { content := [1], toolCalls := [{ name := [2, 3], arguments := [4] }] })
      [{}, { content := [1] }, { content := [1], toolCalls := [{ name := [2] }] }] := by
  refine streamsRight_iff _ _ _ _ rfl ?_
  refine .cons_cons (.of_nil rfl List.nil_prefix List.nil_prefix) (.cons_cons ?_ (.cons_cons ?_ (.singleton _)))
  · exact .of_nil rfl (List.prefix_refl _) List.nil_prefix
  · exact .of_singleton rfl rfl (List.prefix_refl _) List.nil_prefix (by decide) rfl

/-- The text comes with the first part of the name, which is announced as it is. -/
theorem stream_announces_part : ¬∀ (gen : Nat → Text) (start : Msg) (parts : List Msg) (last : Msg), start.toolCalls = [] →
    (start :: parts ++ [last]).IsChain Msg.Grows → StreamsRight gen start parts last := by
  intro h
  obtain ⟨s, ds, hrun, -, -, ha⟩ := h (fun _ => [7]) {} [{ content := [1], toolCalls := [{ name := [2] }] }]
    { content := [1], toolCalls := [{ name := [2, 3] }] } rfl
    (.cons_cons (.of_nil rfl List.nil_prefix List.nil_prefix)
      (.cons_cons (.of_singleton rfl rfl (List.prefix_refl _) List.nil_prefix (by decide) rfl) (.singleton _))) true
  have hcomputed : stream (fun _ => [7]) true {} [{ content := [1], toolCalls := [{ name := [2] }] }]
      { content := [1], toolCalls := [{ name := [2, 3] }] } =
      .ok ({ chatMsg := { content := [1], toolCalls := [{ name := [2, 3], id := [7] }] }
             generatedToolCallIds := [[7]]
             sentToolCallNames := [0] },
        [{ toolCallIndex := some 0, toolCallDelta := { name := [2], id := [7] } }, { contentDelta := [1] }]) := by
    decide +kernel
  obtain ⟨rfl, rfl⟩ := Prod.mk.inj (Except.ok.inj (hcomputed.symm.trans hrun))
  obtain ⟨d, rest, hds, hdelta, -⟩ := ha rfl 0 _ rfl (by decide)
  obtain ⟨rfl, -⟩ := List.cons.inj hds
  exact absurd hdelta (by decide)

end LlamaCpp.Chat
