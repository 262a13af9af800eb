import Mathlib.Data.List.Infix

/-!
# The differences of chat messages

`common_chat_msg_diff::compute_diffs` of chat.cpp: what a client that has the previous message needs to get the
new one.  Content and reasoning come first, then the last tool call of the previous message, then the calls that
are new.

A message that extends the previous one has differences (`computeDiffs_ok`), and they rebuild it
(`computeDiffs_rebuild`).
-/

namespace LlamaCpp.Chat

open List Option

abbrev Text := List UInt8

/-- `common_chat_tool_call` -/
@[ext]
structure ToolCall where
  name : Text := []
  arguments : Text := []
  id : Text := []
deriving DecidableEq

/-- `common_chat_msg`, without its role. -/
structure Msg where
  content : Text := []
  /-- Type and text of the parts. -/
  contentParts : List (Text × Text) := []
  toolCalls : List ToolCall := []
  reasoningContent : Text := []
  toolName : Text := []
  toolCallId : Text := []
deriving DecidableEq

/-- `empty` -/
def Msg.isEmpty (m : Msg) : Bool :=
  m.content = [] ∧ m.contentParts = [] ∧ m.toolCalls = [] ∧ m.reasoningContent = [] ∧ m.toolName = [] ∧ m.toolCallId = []

structure MsgDiff where
  reasoningContentDelta : Text := []
  contentDelta : Text := []
  /-- `none` is `npos`. -/
  toolCallIndex : Option Nat := none
  toolCallDelta : ToolCall := {}
deriving DecidableEq

/-- The errors of `compute_diffs`. -/
inductive DiffError where
  /-- "Invalid diff: '…' not found at start of '…'" -/
  | notAtStart (last current : Text)
  /-- "Invalid diff: now finding less tool calls!", with the calls and the content. -/
  | fewerToolCalls (previous current : List ToolCall) (content : Text)
  /-- "Invalid diff: tool call mismatch!" -/
  | toolCallMismatch
deriving DecidableEq

def stringDiff (last current : Text) : Except DiffError Text :=
  if last = [] then .ok current
  else if ¬last <+: current then
    -- the last text ended on a partial stop word, which is erased now
    if current <+: last then .ok [] else .error (.notAtStart last current)
  else .ok (current.drop last.length)

def textDiff (mk : Text → MsgDiff) (last current : Text) : Except DiffError (List MsgDiff) :=
  if last ≠ current then (stringDiff last current).map fun delta => [mk delta] else .ok []

/-- The difference of the last call of the previous message. -/
def lastCallDiff (idx : Nat) (pref newf : ToolCall) : Except DiffError (List MsgDiff) :=
  if pref.name ≠ newf.name ∧ pref.name ≠ [] ∧ newf.name ≠ [] ∧ ¬pref.name <+: newf.name then .error .toolCallMismatch
  else (stringDiff pref.arguments newf.arguments).map fun argsDiff =>
    if argsDiff ≠ [] ∨ pref.id ≠ newf.id ∨ pref.name ≠ newf.name then
      let delta : ToolCall :=
        if pref.id ≠ newf.id ∨ pref.name ≠ newf.name then { id := newf.id, name := newf.name, arguments := argsDiff }
        else { arguments := argsDiff }
      [{ toolCallIndex := some idx, toolCallDelta := delta }]
    else []

/-- The difference of the call that was the last one. -/
def lastDiff (msgPrv msgNew : Msg) : Except DiffError (List MsgDiff) :=
  let idx := msgPrv.toolCalls.length - 1
  match msgPrv.toolCalls[idx]?, msgNew.toolCalls[idx]? with
  | some pref, some newf => lastCallDiff idx pref newf
  | _, _ => .ok []

/-- The differences of the new calls, from index `idx` on. -/
def newCallDiffs : Nat → List ToolCall → List MsgDiff
  | _, [] => []
  | idx, c :: cs => { toolCallIndex := some idx, toolCallDelta := c } :: newCallDiffs (idx + 1) cs

def computeDiffs (msgPrv msgNew : Msg) : Except DiffError (List MsgDiff) := do
  let reasoning ← textDiff (fun delta => { reasoningContentDelta := delta }) msgPrv.reasoningContent msgNew.reasoningContent
  let content ← textDiff (fun delta => { contentDelta := delta }) msgPrv.content msgNew.content
  if msgNew.toolCalls.length < msgPrv.toolCalls.length then
    throw (.fewerToolCalls msgPrv.toolCalls msgNew.toolCalls msgNew.content)
  let last ← lastDiff msgPrv msgNew
  return reasoning ++ content ++ last ++
    newCallDiffs msgPrv.toolCalls.length (msgNew.toolCalls.drop msgPrv.toolCalls.length)

/-! ## What a list of differences says -/

def diffsAt (ds : List MsgDiff) (i : Nat) : List MsgDiff := ds.filter (·.toolCallIndex = some i)

def contentOf (ds : List MsgDiff) : Text := ds.flatMap (·.contentDelta)

def reasoningOf (ds : List MsgDiff) : Text := ds.flatMap (·.reasoningContentDelta)

def argumentsOf (ds : List MsgDiff) (i : Nat) : Text := (diffsAt ds i).flatMap (·.toolCallDelta.arguments)

def Msg.argumentsAt (m : Msg) (i : Nat) : Text := ((m.toolCalls[i]?).map (·.arguments)).getD []

/-- A client that has `m` and gets the differences has `m'`. -/
structure Rebuilds (m m' : Msg) (ds : List MsgDiff) : Prop where
  content : m.content ++ contentOf ds = m'.content
  reasoning : m.reasoningContent ++ reasoningOf ds = m'.reasoningContent
  arguments : ∀ i, m.argumentsAt i ++ argumentsOf ds i = m'.argumentsAt i

theorem diffsAt_append (ds es : List MsgDiff) (i : Nat) : diffsAt (ds ++ es) i = diffsAt ds i ++ diffsAt es i :=
  filter_append ..

theorem contentOf_append (ds es : List MsgDiff) : contentOf (ds ++ es) = contentOf ds ++ contentOf es :=
  flatMap_append ..

theorem reasoningOf_append (ds es : List MsgDiff) : reasoningOf (ds ++ es) = reasoningOf ds ++ reasoningOf es :=
  flatMap_append ..

theorem argumentsOf_append (ds es : List MsgDiff) (i : Nat) :
    argumentsOf (ds ++ es) i = argumentsOf ds i ++ argumentsOf es i := by
  unfold argumentsOf
  rw [diffsAt_append, flatMap_append]

theorem Rebuilds.refl (m : Msg) : Rebuilds m m [] where
  content := append_nil _
  reasoning := append_nil _
  arguments := fun _ => append_nil _

theorem Rebuilds.trans {m m' m'' : Msg} {ds es : List MsgDiff} (h : Rebuilds m m' ds) (h' : Rebuilds m' m'' es) :
    Rebuilds m m'' (ds ++ es) where
  content := by rw [contentOf_append, ← append_assoc, h.content, h'.content]
  reasoning := by rw [reasoningOf_append, ← append_assoc, h.reasoning, h'.reasoning]
  arguments := fun i => by rw [argumentsOf_append, ← append_assoc, h.arguments, h'.arguments]

/-! ## Messages that extend the previous one -/

/-- A call with more arguments, and perhaps a longer name. -/
structure ToolCall.Extends (c c' : ToolCall) : Prop where
  arguments : c.arguments <+: c'.arguments
  name : c.name <+: c'.name

/-- The text is longer, the calls before the last are the same, and the last extends. -/
structure Msg.Extends (m m' : Msg) : Prop where
  content : m.content <+: m'.content
  reasoning : m.reasoningContent <+: m'.reasoningContent
  earlier : ∀ i, i + 1 < m.toolCalls.length → m'.toolCalls[i]? = m.toolCalls[i]?
  last : ∀ c ∈ m.toolCalls[m.toolCalls.length - 1]?, ∃ c' ∈ m'.toolCalls[m.toolCalls.length - 1]?, c.Extends c'

variable {m m' : Msg} {ds : List MsgDiff} {current : Text}

theorem stringDiff_ok {last : Text} (h : last <+: current) :
    stringDiff last current = .ok (current.drop last.length) := by
  unfold stringDiff
  split
  · rename_i hnil
    rw [hnil, length_nil, drop_zero]
  · rfl

theorem textDiff_ok {mk : Text → MsgDiff} {last : Text} (h : last <+: current) :
    textDiff mk last current = .ok (if last ≠ current then [mk (current.drop last.length)] else []) := by
  unfold textDiff
  split
  · rw [stringDiff_ok h]
    rfl
  · rfl

theorem append_drop {last : Text} (h : last <+: current) : last ++ current.drop last.length = current := by
  obtain ⟨rest, rfl⟩ := h
  rw [drop_left]

theorem drop_eq_nil {last : Text} (h : last <+: current) : current.drop last.length = [] ↔ last = current := by
  constructor
  · intro hd
    have := append_drop h
    rwa [hd, append_nil] at this
  · rintro rfl
    exact drop_length

theorem mem_newCallDiffs {idx : Nat} {cs : List ToolCall} {d : MsgDiff} :
    d ∈ newCallDiffs idx cs ↔ ∃ j, ∃ c ∈ cs[j]?, d = { toolCallIndex := some (idx + j), toolCallDelta := c } := by
  induction cs generalizing idx with
  | nil => simp [newCallDiffs]
  | cons c cs ih =>
    rw [newCallDiffs, mem_cons, ih]
    constructor
    · rintro (rfl | ⟨j, c', hc, rfl⟩)
      · exact ⟨0, c, rfl, rfl⟩
      · exact ⟨j + 1, c', hc, by rw [Nat.add_assoc, Nat.add_comm 1 j]⟩
    · rintro ⟨j, c', hc, rfl⟩
      cases j with
      | zero =>
        obtain rfl := some.inj hc
        exact Or.inl rfl
      | succ j => exact Or.inr ⟨j, c', hc, by rw [Nat.add_assoc, Nat.add_comm 1 j]⟩

theorem argumentsOf_cons (d : MsgDiff) (ds : List MsgDiff) (i : Nat) :
    argumentsOf (d :: ds) i = (if d.toolCallIndex = some i then d.toolCallDelta.arguments else []) ++ argumentsOf ds i := by
  unfold argumentsOf diffsAt
  rw [filter_cons]
  split <;> simp_all

theorem argumentsOf_newCallDiffs (idx : Nat) (cs : List ToolCall) (i : Nat) :
    argumentsOf (newCallDiffs idx cs) i = if idx ≤ i then ((cs[i - idx]?).map (·.arguments)).getD [] else [] := by
  induction cs generalizing idx with
  | nil => simp [newCallDiffs, argumentsOf, diffsAt]
  | cons c cs ih =>
    rw [newCallDiffs, argumentsOf_cons, ih]
    rcases Nat.lt_trichotomy i idx with hlt | rfl | hgt
    · simp [show ¬idx ≤ i by omega, show ¬idx + 1 ≤ i by omega, show idx ≠ i by omega]
    · simp [show ¬i + 1 ≤ i by omega]
    · have hsub : i - idx = i - (idx + 1) + 1 := by omega
      simp [show idx ≤ i by omega, show idx + 1 ≤ i by omega, show idx ≠ i by omega, hsub]

theorem argumentsOf_eq_nil {i : Nat} (h : ∀ d ∈ ds, d.toolCallIndex ≠ some i) : argumentsOf ds i = [] := by
  unfold argumentsOf diffsAt
  rw [filter_eq_nil_iff.mpr fun d hd => by simpa using h d hd]
  rfl

/-- What `lastCallDiff` says of a call that extends. -/
theorem lastCallDiff_ok (idx : Nat) {c c' : ToolCall} (h : c.Extends c') : ∃ delta : ToolCall,
    lastCallDiff idx c c' = .ok (if c = c' then [] else [{ toolCallIndex := some idx, toolCallDelta := delta }]) ∧
      c.arguments ++ delta.arguments = c'.arguments := by
  have hdrop := append_drop h.arguments
  have hne : c'.arguments.drop c.arguments.length ≠ [] ∨ c.id ≠ c'.id ∨ c.name ≠ c'.name ↔ c ≠ c' := by
    rw [Ne, drop_eq_nil h.arguments]
    cases c
    cases c'
    simp only [ne_eq, ToolCall.mk.injEq]
    tauto
  unfold lastCallDiff
  rw [if_neg fun hm => hm.2.2.2 h.name, stringDiff_ok h.arguments]
  refine ⟨if c.id ≠ c'.id ∨ c.name ≠ c'.name then
      { id := c'.id, name := c'.name, arguments := c'.arguments.drop c.arguments.length }
    else { arguments := c'.arguments.drop c.arguments.length }, ?_, ?_⟩
  · simp only [Except.map, hne, ne_eq, ite_not]
  · split
    · exact hdrop
    · exact hdrop

/-- What the differences of a message that extends the previous one say. -/
structure AreDiffs (m m' : Msg) (ds : List MsgDiff) : Prop where
  rebuilds : Rebuilds m m' ds
  /-- The difference of a call has no text. -/
  text : ∀ d ∈ ds, d.toolCallIndex ≠ none → d.contentDelta = [] ∧ d.reasoningContentDelta = []
  index : ∀ d ∈ ds, ∀ i ∈ d.toolCallIndex, i < m'.toolCalls.length
  /-- They are all about call `i` if nothing else differs. -/
  only : ∀ i, (∀ d ∈ ds, d.toolCallIndex = some i) ↔
    m.content = m'.content ∧ m.reasoningContent = m'.reasoningContent ∧ ∀ j ≠ i, m.toolCalls[j]? = m'.toolCalls[j]?

theorem Msg.Extends.length_le (h : m.Extends m') : m.toolCalls.length ≤ m'.toolCalls.length := by
  rcases Nat.eq_zero_or_pos m.toolCalls.length with hz | hpos
  · omega
  · obtain ⟨c', hc', -⟩ := h.last _ (getElem?_eq_getElem (by omega))
    obtain ⟨hlt, -⟩ := List.getElem?_eq_some_iff.mp hc'
    omega

/-- The differences of the last call of `m`. -/
structure AreLastDiffs (m m' : Msg) (last : List MsgDiff) : Prop where
  index : ∀ d ∈ last, d.toolCallIndex = some (m.toolCalls.length - 1)
  text : ∀ d ∈ last, d.contentDelta = [] ∧ d.reasoningContentDelta = []
  none : m.toolCalls = [] → last = []
  arguments : m.toolCalls ≠ [] → m.argumentsAt (m.toolCalls.length - 1) ++ argumentsOf last (m.toolCalls.length - 1) =
    m'.argumentsAt (m.toolCalls.length - 1)
  same : m.toolCalls ≠ [] → (last = [] ↔ m.toolCalls[m.toolCalls.length - 1]? = m'.toolCalls[m.toolCalls.length - 1]?)

theorem lastDiff_ok (h : m.Extends m') : ∃ last, lastDiff m m' = .ok last ∧ AreLastDiffs m m' last := by
  unfold lastDiff
  dsimp only
  cases hget : m.toolCalls[m.toolCalls.length - 1]? with
  | none =>
    have hnil : m.toolCalls = [] := by
      have := List.getElem?_eq_none_iff.mp hget
      exact eq_nil_of_length_eq_zero (by omega)
    exact ⟨[], rfl, fun _ hd => absurd hd not_mem_nil, fun _ hd => absurd hd not_mem_nil, fun _ => rfl,
      fun hne => absurd hnil hne, fun hne => absurd hnil hne⟩
  | some c =>
    obtain ⟨c', hc', hext⟩ := h.last c hget
    obtain ⟨delta, hok, hargs⟩ := lastCallDiff_ok (m.toolCalls.length - 1) hext
    refine ⟨_, by rw [hc']; exact hok, ?_, ?_, ?_, ?_, ?_⟩
    · intro d hd
      split at hd
      · exact absurd hd not_mem_nil
      · obtain rfl := mem_singleton.mp hd
        rfl
    · intro d hd
      split at hd
      · exact absurd hd not_mem_nil
      · obtain rfl := mem_singleton.mp hd
        exact ⟨rfl, rfl⟩
    · intro hnil
      rw [hnil] at hget
      nomatch hget
    · intro _
      unfold Msg.argumentsAt
      rw [hget, hc']
      split
      · rename_i heq
        subst heq
        exact append_nil _
      · simpa [argumentsOf, diffsAt] using hargs
    · intro _
      rw [hget, hc']
      split
      · rename_i heq
        simp [heq]
      · rename_i hne
        simpa using hne

def textDiffs (m m' : Msg) : List MsgDiff :=
  (if m.reasoningContent ≠ m'.reasoningContent then
    [{ reasoningContentDelta := m'.reasoningContent.drop m.reasoningContent.length }] else []) ++
  (if m.content ≠ m'.content then [{ contentDelta := m'.content.drop m.content.length }] else [])

theorem textDiffs_index : ∀ d ∈ textDiffs m m', d.toolCallIndex = none := by
  intro d hd
  rcases List.mem_append.mp hd with hd | hd
  · split at hd
    · obtain rfl := mem_singleton.mp hd
      rfl
    · exact absurd hd not_mem_nil
  · split at hd
    · obtain rfl := mem_singleton.mp hd
      rfl
    · exact absurd hd not_mem_nil

theorem textDiffs_eq_nil : textDiffs m m' = [] ↔ m.content = m'.content ∧ m.reasoningContent = m'.reasoningContent := by
  unfold textDiffs
  rw [append_eq_nil_iff, and_comm]
  simp

theorem textDiffs_content (h : m.Extends m') : m.content ++ contentOf (textDiffs m m') = m'.content := by
  have hdrop := append_drop h.content
  unfold textDiffs
  rw [contentOf_append]
  split <;> split <;> simp_all [contentOf]

theorem textDiffs_reasoning (h : m.Extends m') :
    m.reasoningContent ++ reasoningOf (textDiffs m m') = m'.reasoningContent := by
  have hdrop := append_drop h.reasoning
  unfold textDiffs
  rw [reasoningOf_append]
  split <;> split <;> simp_all [reasoningOf]

/-- The differences of the calls behind those of `m`. -/
abbrev newDiffs (m m' : Msg) : List MsgDiff := newCallDiffs m.toolCalls.length (m'.toolCalls.drop m.toolCalls.length)

theorem mem_newDiffs {d : MsgDiff} (hd : d ∈ newDiffs m m') :
    ∃ i, ∃ c ∈ m'.toolCalls[i]?, m.toolCalls.length ≤ i ∧ d = { toolCallIndex := some i, toolCallDelta := c } := by
  obtain ⟨j, c, hc, rfl⟩ := mem_newCallDiffs.mp hd
  rw [mem_def, getElem?_drop] at hc
  exact ⟨_, c, hc, Nat.le_add_right _ _, rfl⟩

theorem newDiffs_mem {i : Nat} {c : ToolCall} (hle : m.toolCalls.length ≤ i) (hc : c ∈ m'.toolCalls[i]?) :
    { toolCallIndex := some i, toolCallDelta := c } ∈ newDiffs m m' := by
  refine mem_newCallDiffs.mpr ⟨i - m.toolCalls.length, c, ?_, ?_⟩
  · rw [mem_def, getElem?_drop, Nat.add_sub_cancel' hle]
    exact hc
  · rw [Nat.add_sub_cancel' hle]

theorem contentOf_eq_nil (h : ∀ d ∈ ds, d.contentDelta = []) : contentOf ds = [] := flatMap_eq_nil_iff.mpr h

theorem reasoningOf_eq_nil (h : ∀ d ∈ ds, d.reasoningContentDelta = []) : reasoningOf ds = [] :=
  flatMap_eq_nil_iff.mpr h

variable {last : List MsgDiff}

theorem newDiffs_text : ∀ d ∈ newDiffs m m', d.contentDelta = [] ∧ d.reasoningContentDelta = [] := by
  intro d hd
  obtain ⟨i, c, -, -, rfl⟩ := mem_newDiffs hd
  exact ⟨rfl, rfl⟩

theorem rebuilds_parts (h : m.Extends m') (hl : AreLastDiffs m m' last) :
    Rebuilds m m' (textDiffs m m' ++ last ++ newDiffs m m') where
  content := by
    rw [contentOf_append, contentOf_append, contentOf_eq_nil fun d hd => (hl.text d hd).1,
      contentOf_eq_nil fun d hd => (newDiffs_text d hd).1, append_nil, append_nil]
    exact textDiffs_content h
  reasoning := by
    rw [reasoningOf_append, reasoningOf_append, reasoningOf_eq_nil fun d hd => (hl.text d hd).2,
      reasoningOf_eq_nil fun d hd => (newDiffs_text d hd).2, append_nil, append_nil]
    exact textDiffs_reasoning h
  arguments := fun i => by
    have htext : argumentsOf (textDiffs m m') i = [] :=
      argumentsOf_eq_nil fun d hd => by simp [textDiffs_index d hd]
    rw [argumentsOf_append, argumentsOf_append, htext, nil_append, argumentsOf_newCallDiffs]
    rcases Nat.lt_or_ge i m.toolCalls.length with hlt | hge
    · rw [if_neg (by omega), append_nil]
      have hne : m.toolCalls ≠ [] := ne_nil_of_length_pos (by omega)
      rcases Nat.lt_or_ge (i + 1) m.toolCalls.length with hlt' | hge'
      · rw [argumentsOf_eq_nil fun d hd => by rw [hl.index d hd, Ne, some.injEq]; omega, append_nil]
        unfold Msg.argumentsAt
        rw [h.earlier i hlt']
      · obtain rfl : i = m.toolCalls.length - 1 := by omega
        exact hl.arguments hne
    · rw [if_pos hge, getElem?_drop, Nat.add_sub_cancel' hge]
      have hlast : argumentsOf last i = [] := by
        rcases eq_or_ne m.toolCalls [] with hnil | hne
        · rw [hl.none hnil]
          rfl
        · have hpos := length_pos_iff.mpr hne
          exact argumentsOf_eq_nil fun d hd => by rw [hl.index d hd, Ne, some.injEq]; omega
      have hnone : m.argumentsAt i = [] := by
        unfold Msg.argumentsAt
        rw [getElem?_eq_none hge]
        rfl
      rw [hlast, hnone]
      rfl

/-- The differences are all about call `i` if nothing else differs. -/
theorem only_parts (h : m.Extends m') (hl : AreLastDiffs m m' last) (i : Nat) :
    (∀ d ∈ textDiffs m m' ++ last ++ newDiffs m m', d.toolCallIndex = some i) ↔
      m.content = m'.content ∧ m.reasoningContent = m'.reasoningContent ∧ ∀ j ≠ i, m.toolCalls[j]? = m'.toolCalls[j]? := by
  constructor
  · intro hall
    have htext : textDiffs m m' = [] := eq_nil_iff_forall_not_mem.mpr fun d hd => by
      have := hall d (mem_append_left _ (mem_append_left _ hd))
      rw [textDiffs_index d hd] at this
      nomatch this
    obtain ⟨hcontent, hreasoning⟩ := textDiffs_eq_nil.mp htext
    refine ⟨hcontent, hreasoning, fun j hj => ?_⟩
    rcases Nat.lt_or_ge j m.toolCalls.length with hlt | hge
    · have hne : m.toolCalls ≠ [] := ne_nil_of_length_pos (by omega)
      rcases Nat.lt_or_ge (j + 1) m.toolCalls.length with hlt' | hge'
      · exact (h.earlier j hlt').symm
      · obtain rfl : j = m.toolCalls.length - 1 := by omega
        refine (hl.same hne).mp (eq_nil_iff_forall_not_mem.mpr fun d hd => hj ?_)
        exact some.inj ((hl.index d hd).symm.trans (hall d (mem_append_left _ (mem_append_right _ hd))))
    · rw [getElem?_eq_none hge]
      refine (eq_none_iff_forall_ne_some.mpr fun c hc => hj ?_).symm
      exact some.inj (hall _ (mem_append_right _ (newDiffs_mem hge hc)))
  · rintro ⟨hcontent, hreasoning, hcalls⟩ d hd
    rw [textDiffs_eq_nil.mpr ⟨hcontent, hreasoning⟩, nil_append] at hd
    rcases List.mem_append.mp hd with hd | hd
    · rw [hl.index d hd]
      refine congrArg some (not_not.mp fun hne => ?_)
      rcases eq_or_ne m.toolCalls [] with hnil | hnonempty
      · exact absurd (hl.none hnil ▸ hd) not_mem_nil
      · exact absurd ((hl.same hnonempty).mpr (hcalls _ hne) ▸ hd) not_mem_nil
    · obtain ⟨j, c, hc, hle, rfl⟩ := mem_newDiffs hd
      refine congrArg some (not_not.mp fun hne => ?_)
      have := (hcalls j hne).trans hc
      rw [getElem?_eq_none hle] at this
      nomatch this

/-- A message that extends the previous one has differences, and they rebuild it. -/
theorem computeDiffs_ok (h : m.Extends m') : ∃ ds, computeDiffs m m' = .ok ds ∧ AreDiffs m m' ds := by
  obtain ⟨last, hok, hl⟩ := lastDiff_ok h
  refine ⟨textDiffs m m' ++ last ++ newDiffs m m', ?_, rebuilds_parts h hl, ?_, ?_, only_parts h hl⟩
  · unfold computeDiffs
    have hlen := Nat.not_lt.mpr h.length_le
    rw [textDiff_ok h.reasoning, textDiff_ok h.content]
    simp only [bind, Except.bind, pure, Except.pure, if_neg hlen, hok, textDiffs]
  · intro d hd hne
    rcases List.mem_append.mp hd with hd | hd
    · rcases List.mem_append.mp hd with hd | hd
      · exact absurd (textDiffs_index d hd) hne
      · exact hl.text d hd
    · exact newDiffs_text d hd
  · intro d hd i hi
    rcases List.mem_append.mp hd with hd | hd
    · rcases List.mem_append.mp hd with hd | hd
      · rw [textDiffs_index d hd] at hi
        nomatch hi
      · obtain rfl := some.inj ((hl.index d hd).symm.trans hi)
        have hne : m.toolCalls ≠ [] := fun hnil => absurd (hl.none hnil ▸ hd) not_mem_nil
        have hpos := length_pos_iff.mpr hne
        have hle := h.length_le
        omega
    · obtain ⟨j, c, hc, -, rfl⟩ := mem_newDiffs hd
      obtain rfl := some.inj hi
      exact (List.getElem?_eq_some_iff.mp hc).1

end LlamaCpp.Chat
