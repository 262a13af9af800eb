import LlamaCpp.Server.TokenText
import Mathlib.Data.Nat.Find

/-!
# Stop words

The search of `find_stopping_strings` for whole stop words looks only at the end of the text that was not sent, as
long as the word and the last piece.  What was not sent begins in front of every stop word (`QuietInv`), but a stop
word may end in a piece that was skipped because its last character was not complete.  The first stop word ends the
run as it should exactly if it reaches into the window and nothing else ends the run with it (`stopsRight_iff`).
-/

namespace LlamaCpp.Server

open List Option

open Search

/-- Some stop word stands in the text. -/
def HasStop (words : List (List UInt8)) (text : List UInt8) : Prop := ∃ word ∈ words, ∃ i, OccursAt word text i

/-- The first place at which a stop word stands. -/
def IsEarliest (words : List (List UInt8)) (text : List UInt8) (e : Nat) : Prop :=
  (∃ word ∈ words, OccursAt word text e) ∧ ∀ word ∈ words, ∀ i, OccursAt word text i → e ≤ i

/-- With this token the text gets no stop word, or its last character is not complete. -/
def NoStopYet (p : TextParams) (s : TextStream) (t : TokenInput) : Prop :=
  ¬(validateUtf8 (s.slot.generatedText ++ t.piece) = (s.slot.generatedText ++ t.piece).length ∧
    HasStop p.antiprompt (s.slot.generatedText ++ t.piece))

/-- The token ends the run with a stop word: the text is cut at the first one, and what was sent has none of it. -/
def StopsRight (p : TextParams) (s : TextStream) (t : TokenInput) : Prop :=
  ∃ e, IsEarliest p.antiprompt (s.slot.generatedText ++ t.piece) e ∧
    (s.process p t).slot.stop = .word ∧ (s.process p t).slot.hasNextToken = false ∧
    (s.process p t).slot.generatedText = (s.slot.generatedText ++ t.piece).take e ∧
    (s.process p t).slot.stoppingWord ∈ p.antiprompt ∧
    OccursAt (s.process p t).slot.stoppingWord (s.slot.generatedText ++ t.piece) e ∧
    (s.process p t).sent <+: (s.slot.generatedText ++ t.piece).take e ∧ ¬HasStop p.antiprompt (s.process p t).sent

/-- The first stop word reaches into the window, and the run is not ended by the context, the indentation, the time or
the end of generation. -/
def StopSeen (p : TextParams) (s : TextSlot) (t : TokenInput) : Prop :=
  ∃ e, IsEarliest p.antiprompt (s.generatedText ++ t.piece) e ∧
    (∃ word ∈ p.antiprompt, OccursAt word (s.generatedText ++ t.piece) e ∧
      (s.generatedText ++ t.piece).length ≤ e + (word.length + t.piece.length)) ∧
    ¬(p.ctxShift = false ∧ p.nCtx ≤ t.nTokens + 1) ∧
    ¬s.IndentStops p ((s.generatedText ++ t.piece).take e) ∧
    ¬(10 ∈ ((s.generatedText ++ t.piece).take e).drop s.nSentText ∧ t.late = true) ∧ t.isEog = false

/-! ## The searches -/

section Searches

variable {text str stop : List UInt8} {words : List (List UInt8)} {last n : Nat}

theorem exists_earliest (h : HasStop words text) : ∃ e, IsEarliest words text e := by
  have hex : ∃ i, ∃ word ∈ words, OccursAt word text i := by
    obtain ⟨word, hw, i, hi⟩ := h
    exact ⟨i, word, hw, hi⟩
  classical
  exact ⟨Nat.find hex, Nat.find_spec hex, fun word hw i hi => Nat.find_min' hex ⟨word, hw, hi⟩⟩

theorem IsEarliest.unique {e e' : Nat} (h : IsEarliest words text e) (h' : IsEarliest words text e') : e = e' := by
  obtain ⟨⟨word, hw, hocc⟩, hmin⟩ := h
  obtain ⟨⟨word', hw', hocc'⟩, hmin'⟩ := h'
  exact Nat.le_antisymm (hmin word' hw' e' hocc') (hmin' word hw e hocc)

/-- In front of the first stop word there is none. -/
theorem IsEarliest.not_hasStop {e : Nat} (h : IsEarliest words text e) (hne : ∀ word ∈ words, word ≠ []) (hn : n ≤ e) :
    ¬HasStop words (text.take n) := by
  rintro ⟨word, hw, i, hi⟩
  have hle := h.2 word hw i hi.of_take
  have hend := hi.end_le
  have hpos := length_pos_iff.mpr (hne word hw)
  rw [length_take] at hend
  omega

/-- The last byte of a beginning of the word that ends the text. -/
theorem getLast_of_suffix {len : Nat} (h : stop.take (len + 1) <:+ str) (hlen : len < stop.length) :
    stop[len]? = str.getLast? := by
  obtain ⟨front, rfl⟩ := h
  have hne : stop.take (len + 1) ≠ [] := ne_nil_of_length_pos (by rw [length_take]; omega)
  rw [getLast?_append_of_ne_nil _ hne, getLast?_eq_getElem?, length_take,
    show min (len + 1) stop.length - 1 = len by omega, getElem?_take_of_lt (Nat.lt_succ_self len)]

theorem partialStopLoop_none {m : Nat} (h : partialStopLoop str stop m = none) {len : Nat} (hlen : len < m)
    (hstop : len < stop.length) : ¬stop.take (len + 1) <:+ str := by
  induction m with
  | zero => exact absurd hlen (Nat.not_lt_zero _)
  | succ m ih =>
    unfold partialStopLoop at h
    split at h
    · nomatch h
    · rename_i hnot
      rcases Nat.lt_or_ge len m with hlt | hge
      · exact ih h hlt
      · obtain rfl : len = m := by omega
        exact fun hsuffix => hnot ⟨getLast_of_suffix hsuffix hstop, hsuffix⟩

/-- Where a text overhangs, `string_find_partial_stop` finds something. -/
theorem partial_of_overhangs {i : Nat} (h : Overhangs stop str i) : stringFindPartialStop str stop ≠ none := by
  intro hnone
  have hlen := h.2.length_le
  have hlt := h.1
  rw [length_drop] at hlen
  unfold stringFindPartialStop at hnone
  rw [if_pos ⟨ne_nil_of_length_pos (by omega), ne_nil_of_length_pos (by omega)⟩] at hnone
  have htake : stop.take (str.length - i - 1 + 1) = str.drop i := by
    have heq := prefix_iff_eq_take.mp h.2
    rw [length_drop] at heq
    rw [heq]
    congr 1
    omega
  have hnot : ¬stop.take (str.length - i - 1 + 1) <:+ str := partialStopLoop_none hnone (by omega) (by omega)
  rw [htake] at hnot
  exact hnot (drop_suffix i str)

/-- A whole stop word is found where it stands. -/
theorem occursAt_of_full {pos : Nat} {word : List UInt8} (h : stopPosition text last true word = some pos) :
    OccursAt word text pos ∧ text.length ≤ pos + (word.length + last) := by
  obtain ⟨hle, hocc, -⟩ := findFrom_spec h
  exact ⟨hocc, by omega⟩

end Searches

/-! ## The checks behind the search -/

section Checks

variable {p : TextParams} {t : TokenInput} {toSend : List UInt8} {s : TextSlot}

theorem checkIndent_eq (s : TextSlot) :
    (s.checkIndent p).hasNewLine = s.hasNewLine ∧ (s.checkIndent p).nSentText = s.nSentText ∧
    (s.checkIndent p).stoppingWord = s.stoppingWord ∧
    (s.checkIndent p).stop = (if s.IndentStops p s.generatedText then .limit else s.stop) ∧
    (s.checkIndent p).hasNextToken = (if s.IndentStops p s.generatedText then false else s.hasNextToken) ∧
    (¬s.IndentStops p s.generatedText → (s.checkIndent p).generatedText = s.generatedText) := by
  unfold TextSlot.checkIndent
  dsimp only
  split
  · split
    · split <;> simp_all
    · simp_all
  · split
    · split <;> simp_all
    · simp_all

/-- The text, what was sent of it and the reason of the end are the same, and the run goes on in `s`. -/
structure GoesOn (s s' : TextSlot) : Prop where
  text : s'.generatedText = s.generatedText
  sent : s'.nSentText = s.nSentText
  stop : s'.stop = s.stop
  next : s.hasNextToken = true

theorem GoesOn.trans {s' s'' : TextSlot} (h : GoesOn s s') (h' : GoesOn s' s'') : GoesOn s s'' :=
  ⟨h'.text.trans h.text, h'.sent.trans h.sent, h'.stop.trans h.stop, h.next⟩

theorem checkContext_goesOn (h : (s.checkContext p t).hasNextToken = true) : GoesOn s (s.checkContext p t) := by
  unfold TextSlot.checkContext at h ⊢
  split at h
  · nomatch h
  · rename_i hnot
    rw [if_neg hnot]
    exact ⟨rfl, rfl, rfl, h⟩

theorem checkBudget_goesOn (h : (s.checkBudget p t).hasNextToken = true) : GoesOn s (s.checkBudget p t) := by
  unfold TextSlot.checkBudget at h ⊢
  split at h
  · nomatch h
  · rename_i hnot
    rw [if_neg hnot]
    exact ⟨rfl, rfl, rfl, h⟩

theorem checkIndent_goesOn (h : (s.checkIndent p).hasNextToken = true) : GoesOn s (s.checkIndent p) := by
  obtain ⟨-, hsent, -, hstop, hnext, htext⟩ := checkIndent_eq (p := p) s
  have hnot : ¬s.IndentStops p s.generatedText := fun hyes => by
    rw [hnext, if_pos hyes] at h
    nomatch h
  rw [hnext, if_neg hnot] at h
  rw [if_neg hnot] at hstop
  exact ⟨htext hnot, hsent, hstop, h⟩

theorem checkNewLine_goesOn (h : (s.checkNewLine t toSend).hasNextToken = true) : GoesOn s (s.checkNewLine t toSend) := by
  unfold TextSlot.checkNewLine at h ⊢
  split at h
  · rename_i hnl
    rw [if_pos hnl]
    split at h
    · nomatch h
    · rename_i hnot
      rw [if_neg hnot]
      exact ⟨rfl, rfl, rfl, h⟩
  · rename_i hnot
    rw [if_neg hnot]
    exact ⟨rfl, rfl, rfl, h⟩

theorem checkEog_goesOn (h : (s.checkEog t).hasNextToken = true) : GoesOn s (s.checkEog t) ∧ t.isEog = false := by
  unfold TextSlot.checkEog at h ⊢
  split at h
  · nomatch h
  · rename_i hnot
    rw [if_neg hnot]
    exact ⟨⟨rfl, rfl, rfl, h⟩, Bool.not_eq_true _ ▸ hnot⟩

/-- If the run goes on, the checks have changed nothing of the text. -/
theorem finish_goesOn (h : (s.finish p t toSend).hasNextToken = true) : GoesOn s (s.finish p t toSend) ∧ t.isEog = false := by
  obtain ⟨heog, hnot⟩ := checkEog_goesOn h
  have hnewLine := checkNewLine_goesOn heog.next
  have hindent := checkIndent_goesOn hnewLine.next
  have hbudget := checkBudget_goesOn hindent.next
  have hcontext := checkContext_goesOn hbudget.next
  exact ⟨(((hcontext.trans hbudget).trans hindent).trans hnewLine).trans heog, hnot⟩

/-- What the checks do to a slot whose run has ended with a stop word. -/
theorem finish_word (hnext : s.hasNextToken = false) :
    ((s.finish p t toSend).stop = .word ↔ s.stop = .word ∧ ¬(p.ctxShift = false ∧ p.nCtx ≤ t.nTokens + 1) ∧
      ¬s.IndentStops p s.generatedText ∧ ¬(10 ∈ toSend ∧ t.late = true) ∧ t.isEog = false) ∧
    (s.finish p t toSend).hasNextToken = false ∧ (s.finish p t toSend).stoppingWord = s.stoppingWord ∧
    (¬s.IndentStops p s.generatedText → (s.finish p t toSend).generatedText = s.generatedText) := by
  -- the context check, behind which there is no budget to check
  have hcontext : ∃ s', (s.checkContext p t).checkBudget p t = s' ∧ s'.generatedText = s.generatedText ∧
      s'.hasNewLine = s.hasNewLine ∧ s'.lastNlPos = s.lastNlPos ∧ s'.hasNextToken = false ∧ s'.stoppingWord = s.stoppingWord ∧
      s'.stop = if p.ctxShift = false ∧ p.nCtx ≤ t.nTokens + 1 then .limit else s.stop := by
    refine ⟨_, rfl, ?_⟩
    unfold TextSlot.checkContext TextSlot.checkBudget
    split_ifs <;> simp_all
  obtain ⟨s', heq, htext, hline, hpos, hnext', hword, hstop⟩ := hcontext
  have hindentStops : s'.IndentStops p s'.generatedText ↔ s.IndentStops p s.generatedText := by
    unfold TextSlot.IndentStops
    rw [htext, hline, hpos]
  obtain ⟨-, -, hword', hstop', hnext'', htext'⟩ := checkIndent_eq (p := p) s'
  simp only [hindentStops, hstop] at hstop'
  rw [hnext', ite_self] at hnext''
  rw [hindentStops, htext] at htext'
  unfold TextSlot.finish
  rw [heq]
  generalize s'.checkIndent p = u at hword' hstop' hnext'' htext'
  have hlast : ((u.checkNewLine t toSend).checkEog t).stop =
      if t.isEog then .eos else if 10 ∈ toSend ∧ t.late = true then .limit else u.stop := by
    unfold TextSlot.checkEog TextSlot.checkNewLine
    split_ifs <;> simp_all
  have hrest : ((u.checkNewLine t toSend).checkEog t).hasNextToken = false ∧
      ((u.checkNewLine t toSend).checkEog t).stoppingWord = u.stoppingWord ∧
      ((u.checkNewLine t toSend).checkEog t).generatedText = u.generatedText := by
    unfold TextSlot.checkEog TextSlot.checkNewLine
    split_ifs <;> simp_all
  refine ⟨?_, hrest.1, hrest.2.1.trans (hword'.trans hword), fun hnot => hrest.2.2.trans (htext' hnot)⟩
  rw [hlast, hstop']
  split_ifs <;> simp_all

/-- The checks do not end a run with a stop word. -/
theorem stop_of_finish_word (h : (s.finish p t toSend).stop = .word) : s.stop = .word := by
  have hcontext : ((s.checkContext p t).checkBudget p t).stop = .word → s.stop = .word := by
    unfold TextSlot.checkContext TextSlot.checkBudget
    split_ifs <;> simp
  obtain ⟨-, -, -, hstop, -, -⟩ := checkIndent_eq (p := p) ((s.checkContext p t).checkBudget p t)
  have hindent : (((s.checkContext p t).checkBudget p t).checkIndent p).stop = .word := by
    unfold TextSlot.finish TextSlot.checkEog TextSlot.checkNewLine at h
    split_ifs at h
    all_goals exact h
  rw [hindent] at hstop
  split_ifs at hstop
  exact hcontext hstop.symm

end Checks

/-! ## Runs -/

section QuietRuns

variable {p : TextParams} {s s' : TextStream} {t : TokenInput} {word : List UInt8} {u : TextSlot}

/-- What was sent is in front of every stop word, and of every end of the text that may begin one. -/
structure QuietInv (p : TextParams) (s : TextStream) : Prop where
  sent : s.sent = s.slot.generatedText.take s.slot.nSentText
  le : s.slot.nSentText ≤ s.slot.generatedText.length
  stop : s.slot.stop = .none
  overhangs : ∀ word ∈ p.antiprompt, ∀ e, Overhangs word s.slot.generatedText e → s.slot.nSentText ≤ e
  occurs : ∀ word ∈ p.antiprompt, ∀ e, OccursAt word s.slot.generatedText e → s.slot.nSentText ≤ e

theorem quietInv_init (p : TextParams) : QuietInv p {} where
  sent := rfl
  le := Nat.le_refl _
  stop := rfl
  overhangs := fun _ _ e _ => Nat.zero_le e
  occurs := fun _ _ e _ => Nat.zero_le e

/-- A stop word that a piece completes begins behind what was sent. -/
theorem QuietInv.occurs_push (h : QuietInv p s) (t : TokenInput) (hw : word ∈ p.antiprompt) {e : Nat}
    (hocc : OccursAt word (s.slot.generatedText ++ t.piece) e) : s.slot.nSentText ≤ e := by
  rcases hocc.of_append with hold | hover | hnew
  · exact h.occurs word hw e hold
  · exact h.overhangs word hw e hover
  · exact h.le.trans hnew

theorem QuietInv.overhangs_push (h : QuietInv p s) (t : TokenInput) (hw : word ∈ p.antiprompt) {e : Nat}
    (hover : Overhangs word (s.slot.generatedText ++ t.piece) e) : s.slot.nSentText ≤ e := by
  rcases Nat.lt_or_ge e s.slot.generatedText.length with hlt | hge
  · exact h.overhangs word hw e (hover.of_append hlt)
  · exact h.le.trans hge

theorem QuietInv.push_le (h : QuietInv p s) (t : TokenInput) :
    s.slot.nSentText ≤ (s.slot.generatedText ++ t.piece).length :=
  h.le.trans (length_append ▸ Nat.le_add_right _ _)

theorem QuietInv.push_sent (h : QuietInv p s) (t : TokenInput) :
    s.sent = (s.slot.generatedText ++ t.piece).take s.slot.nSentText := by
  rw [take_append_of_le_length h.le]
  exact h.sent

/-- No stop word in the text: the search for whole words finds none. -/
theorem full_eq_none {text : List UInt8} {n : Nat} (hle : n ≤ text.length) (hno : ¬HasStop p.antiprompt text) (last : Nat) :
    findStoppingStrings p.antiprompt (text.drop n) last true = none := by
  have hspec := findStoppingStrings_spec p.antiprompt (text.drop n) last true
  cases hfind : findStoppingStrings p.antiprompt (text.drop n) last true with
  | none => rfl
  | some found =>
    rw [hfind] at hspec
    obtain ⟨pos, word⟩ := found
    exact absurd ⟨word, hspec.1, _, (occursAt_of_full hspec.2.1).1.of_drop hle⟩ hno

/-- What the search does to text without a stop word. -/
theorem searchStop_quiet (hle : u.nSentText ≤ u.generatedText.length)
    (hno : ¬HasStop p.antiprompt u.generatedText) : u.searchStop p t =
      if t.isEog ∨ findStoppingStrings p.antiprompt (u.generatedText.drop u.nSentText) t.piece.length false = none then
        ({ u with nSentText := u.nSentText + (u.generatedText.drop u.nSentText).length }, u.generatedText.drop u.nSentText)
      else (u, []) := by
  unfold TextSlot.searchStop
  rw [Nat.min_eq_left hle]
  simp only [full_eq_none hle hno]

theorem QuietInv.step (h : QuietInv p s) (hquiet : NoStopYet p s t) (hrun : s.step p t = some s') : QuietInv p s' := by
  obtain ⟨hgo, hrun⟩ := ite_none_right_eq_some.mp hrun
  obtain rfl := some.inj hrun
  have htext : (s.slot.push t).generatedText = s.slot.generatedText ++ t.piece := rfl
  have hn : (s.slot.push t).nSentText = s.slot.nSentText := rfl
  unfold TextStream.process at hgo ⊢
  by_cases hcut : validateUtf8 (s.slot.push t).generatedText < (s.slot.push t).generatedText.length
  · rw [processToken_incomplete hcut] at hgo ⊢
    obtain ⟨hsame, -⟩ := finish_goesOn hgo
    rw [getD_none, append_nil]
    refine ⟨?_, ?_, hsame.stop.trans h.stop, ?_, ?_⟩
    · rw [hsame.text, hsame.sent]
      exact h.push_sent t
    · rw [hsame.text, hsame.sent]
      exact h.push_le t
    · rw [hsame.text, hsame.sent]
      exact fun word hw e => h.overhangs_push t hw
    · rw [hsame.text, hsame.sent]
      exact fun word hw e => h.occurs_push t hw
  · have hcomplete : validateUtf8 (s.slot.push t).generatedText = (s.slot.push t).generatedText.length :=
      Nat.le_antisymm (validateUtf8_le _) (Nat.not_lt.mp hcut)
    have hno : ¬HasStop p.antiprompt (s.slot.push t).generatedText := fun hhas => hquiet ⟨hcomplete, hhas⟩
    have hnone : ∀ word ∈ p.antiprompt, ∀ e, ¬OccursAt word (s.slot.push t).generatedText e := fun word hw e hocc =>
      hno ⟨word, hw, e, hocc⟩
    rw [processToken_complete hcut, searchStop_quiet (h.push_le t) hno] at hgo ⊢
    by_cases hsend : t.isEog = true ∨ findStoppingStrings p.antiprompt
        ((s.slot.push t).generatedText.drop (s.slot.push t).nSentText) t.piece.length false = none
    · rw [if_pos hsend] at hgo ⊢
      obtain ⟨hsame, hnot⟩ := finish_goesOn hgo
      have hlen : s.slot.nSentText + ((s.slot.push t).generatedText.drop s.slot.nSentText).length =
          (s.slot.push t).generatedText.length := by
        rw [length_drop]
        exact Nat.add_sub_cancel' (h.push_le t)
      rw [getD_some]
      refine ⟨?_, ?_, hsame.stop.trans h.stop, ?_, ?_⟩
      · rw [hsame.text, hsame.sent]
        rw [hn, hlen, take_length, h.push_sent t, ← htext, take_append_drop]
      · rw [hsame.text, hsame.sent]
        exact Nat.le_of_eq hlen
      · rw [hsame.text, hsame.sent]
        intro word hw e hover
        -- the end of the text would have been held back
        refine absurd ?_ (partial_of_overhangs (hover.drop (h.overhangs_push t hw hover)))
        have hspec := findStoppingStrings_spec p.antiprompt ((s.slot.push t).generatedText.drop s.slot.nSentText)
          t.piece.length false
        rw [← hn, hsend.resolve_left (by rw [hnot]; exact nofun)] at hspec
        exact hspec word hw
      · rw [hsame.text]
        exact fun word hw e hocc => absurd hocc (hnone word hw e)
    · rw [if_neg hsend] at hgo ⊢
      obtain ⟨hsame, -⟩ := finish_goesOn hgo
      rw [getD_some, append_nil]
      refine ⟨?_, ?_, hsame.stop.trans h.stop, ?_, ?_⟩
      · rw [hsame.text, hsame.sent]
        exact h.push_sent t
      · rw [hsame.text, hsame.sent]
        exact h.push_le t
      · rw [hsame.text, hsame.sent]
        exact fun word hw e => h.overhangs_push t hw
      · rw [hsame.text]
        exact fun word hw e hocc => absurd hocc (hnone word hw e)

theorem searchStop_found {pos : Nat} (hle : u.nSentText ≤ u.generatedText.length)
    (hfind : findStoppingStrings p.antiprompt (u.generatedText.drop u.nSentText) t.piece.length true = some (pos, word)) :
    (u.searchStop p t).1.generatedText = u.generatedText.take (u.nSentText + pos) ∧ (u.searchStop p t).1.stop = .word ∧
      (u.searchStop p t).1.stoppingWord = word ∧ (u.searchStop p t).1.hasNextToken = false ∧
      (u.searchStop p t).2 = (u.generatedText.take (u.nSentText + pos)).drop u.nSentText ∧
      ∀ text, (u.searchStop p t).1.IndentStops p text ↔ u.IndentStops p text := by
  have hlen : u.nSentText ≤ (u.generatedText.take (u.nSentText + pos)).length := by
    rw [length_take]
    omega
  unfold TextSlot.searchStop
  rw [Nat.min_eq_left hle]
  simp only [hfind, Nat.min_eq_left hlen]
  exact ⟨trivial, trivial, trivial, trivial, trivial, fun _ => Iff.rfl⟩

/-- The first stop word is found exactly if it reaches into the window. -/
theorem found_iff {text : List UInt8} {n last e : Nat} (hle : n ≤ e) (he : IsEarliest p.antiprompt text e) :
    (∃ word ∈ p.antiprompt, OccursAt word text e ∧ text.length ≤ e + (word.length + last)) ↔
      ∃ word, findStoppingStrings p.antiprompt (text.drop n) last true = some (e - n, word) := by
  obtain ⟨⟨word₀, hw₀, hocc₀⟩, hmin⟩ := he
  have hspec := findStoppingStrings_spec p.antiprompt (text.drop n) last true
  constructor
  · rintro ⟨word, hw, hocc, hwindow⟩
    have hend := hocc.1
    obtain ⟨k, hk, hke⟩ := findFrom_isSome (i := (text.drop n).length - (word.length + last)) (j := e - n)
      (by rw [length_drop]; omega) (hocc.drop hle)
    cases hfind : findStoppingStrings p.antiprompt (text.drop n) last true with
    | none =>
      rw [hfind] at hspec
      have hno := hspec word hw
      exact nomatch hno.symm.trans hk
    | some found =>
      obtain ⟨pos, word'⟩ := found
      rw [hfind] at hspec
      obtain ⟨hw', hpos, hfirst⟩ := hspec
      have hlow := hmin word' hw' _ ((occursAt_of_full hpos).1.of_drop (hle.trans hend))
      have hhigh := hfirst word hw k hk
      refine ⟨word', ?_⟩
      rw [show e - n = pos by omega]
  · rintro ⟨word, hfind⟩
    rw [hfind] at hspec
    obtain ⟨hw, hpos, -⟩ := hspec
    obtain ⟨hocc, hwindow⟩ := occursAt_of_full hpos
    have hend := hocc₀.1
    have hat := hocc.of_drop (hle.trans hend)
    rw [Nat.add_sub_cancel' hle] at hat
    rw [length_drop] at hwindow
    exact ⟨word, hw, hat, by omega⟩

/-- The reason of the end is a stop word only if one was found. -/
theorem found_of_word (hstop : u.stop = .none) (hle : u.nSentText ≤ u.generatedText.length)
    (h : (u.searchStop p t).1.stop = .word) :
    ∃ pos word, findStoppingStrings p.antiprompt (u.generatedText.drop u.nSentText) t.piece.length true = some (pos, word) := by
  unfold TextSlot.searchStop at h
  rw [Nat.min_eq_left hle] at h
  dsimp only at h
  split at h
  · rename_i pos word hfind
    exact ⟨pos, word, hfind⟩
  · split at h
    · exact nomatch hstop.symm.trans h
    · exact nomatch hstop.symm.trans h

end QuietRuns

/-- The first token with which the complete text has a stop word ends the run as it should exactly if the first stop
word reaches into the window of the search and nothing else ends the run. -/
theorem stopsRight_iff (p : TextParams) (hne : ∀ word ∈ p.antiprompt, word ≠ []) (s : TextStream)
    (h : Runs.Reaches (TextStream.step p) (NoStopYet p) {} s) (t : TokenInput)
    (hcomplete : validateUtf8 (s.slot.generatedText ++ t.piece) = (s.slot.generatedText ++ t.piece).length)
    (hhas : HasStop p.antiprompt (s.slot.generatedText ++ t.piece)) : StopsRight p s t ↔ StopSeen p s.slot t := by
  have hinv : QuietInv p s := h.inv (fun _ _ _ hs hquiet hrun => hs.step hquiet hrun) (quietInv_init p)
  obtain ⟨e, he⟩ := exists_earliest hhas
  obtain ⟨⟨word₀, hw₀, hocc₀⟩, -⟩ := id he
  have hsent₀ : s.slot.nSentText ≤ e := hinv.occurs_push t hw₀ hocc₀
  have hend₀ := hocc₀.end_le
  have hpos₀ := length_pos_iff.mpr (hne word₀ hw₀)
  have hle : (s.slot.push t).nSentText ≤ (s.slot.push t).generatedText.length := hinv.push_le t
  have hcut : ¬validateUtf8 (s.slot.push t).generatedText < (s.slot.push t).generatedText.length :=
    Nat.not_lt.mpr (Nat.le_of_eq hcomplete.symm)
  have hprocess : s.process p t =
      { slot := ((s.slot.push t).searchStop p t).1.finish p t ((s.slot.push t).searchStop p t).2
        sent := s.sent ++ ((s.slot.push t).searchStop p t).2 } := by
    unfold TextStream.process
    rw [processToken_complete hcut]
    rfl
  have hfound := @found_iff p _ _ t.piece.length _ hsent₀ he
  constructor
  · rintro ⟨e', he', hstop, -, htext, -⟩
    obtain rfl := he.unique he'
    rw [hprocess] at hstop htext
    have hsearch : ((s.slot.push t).searchStop p t).1.stop = .word := stop_of_finish_word hstop
    obtain ⟨pos, word, hfind⟩ := @found_of_word p t (s.slot.push t) hinv.stop hle hsearch
    obtain ⟨htext', -, -, hnext', hsend, hindent'⟩ := @searchStop_found p t word (s.slot.push t) pos hle hfind
    have hspec := findStoppingStrings_spec p.antiprompt ((s.slot.push t).generatedText.drop (s.slot.push t).nSentText)
      t.piece.length true
    rw [hfind] at hspec
    obtain ⟨hw, hpos, -⟩ := hspec
    obtain ⟨hiff, -, -, hkeep⟩ := @finish_word p t ((s.slot.push t).searchStop p t).2 _ hnext'
    obtain ⟨-, hcontext, hindent, hlate, heog⟩ := hiff.mp hstop
    rw [hkeep hindent, htext'] at htext
    have hpos : s.slot.nSentText + pos = e := by
      have hlen := congrArg List.length htext
      rw [length_take, length_take] at hlen
      have hn : (s.slot.push t).nSentText = s.slot.nSentText := rfl
      have hT : (s.slot.push t).generatedText = s.slot.generatedText ++ t.piece := rfl
      rw [hn, hT] at hlen
      omega
    subst hpos
    rw [htext', hindent'] at hindent
    rw [hsend] at hlate
    refine ⟨_, he, hfound.mpr ⟨word, ?_⟩, hcontext, hindent, hlate, heog⟩
    rw [Nat.add_sub_cancel_left]
    exact hfind
  · rintro ⟨e', he', hwindow, hcontext, hindent, hlate, heog⟩
    obtain rfl := he.unique he'
    obtain ⟨word, hfind⟩ := hfound.mp hwindow
    have hadd : s.slot.nSentText + (e - s.slot.nSentText) = e := Nat.add_sub_cancel' hsent₀
    have hspec := findStoppingStrings_spec p.antiprompt ((s.slot.generatedText ++ t.piece).drop s.slot.nSentText)
      t.piece.length true
    rw [hfind] at hspec
    obtain ⟨hw, hpos, -⟩ := hspec
    have hocc := (occursAt_of_full hpos).1.of_drop (hinv.push_le t)
    rw [hadd] at hocc
    obtain ⟨htext', hstop', hword', hnext', hsend, hindent'⟩ := @searchStop_found p t word (s.slot.push t) _ hle hfind
    have htake : (s.slot.push t).generatedText.take ((s.slot.push t).nSentText + (e - s.slot.nSentText)) =
        (s.slot.generatedText ++ t.piece).take e :=
      congrArg (fun n => (s.slot.generatedText ++ t.piece).take n) hadd
    rw [htake] at htext' hsend
    obtain ⟨hiff, hnext, hwordkept, hkeep⟩ := @finish_word p t ((s.slot.push t).searchStop p t).2 _ hnext'
    have hindent'' : ¬((s.slot.push t).searchStop p t).1.IndentStops p ((s.slot.push t).searchStop p t).1.generatedText := by
      rw [htext', hindent']
      exact hindent
    have hsent : s.sent ++ ((s.slot.push t).searchStop p t).2 = (s.slot.generatedText ++ t.piece).take e := by
      have hbegin : s.sent = ((s.slot.generatedText ++ t.piece).take e).take s.slot.nSentText := by
        rw [take_take, Nat.min_eq_left hsent₀]
        exact hinv.push_sent t
      rw [hsend, hbegin]
      exact take_append_drop _ _
    refine ⟨e, he, ?_⟩
    rw [hprocess]
    refine ⟨hiff.mpr ⟨hstop', hcontext, hindent'', hsend ▸ hlate, heog⟩, hnext, (hkeep hindent'').trans htext', ?_, ?_, ?_, ?_⟩
    · rw [hwordkept, hword']
      exact hw
    · rw [hwordkept, hword']
      exact hocc
    · rw [hsent]
    · rw [hsent]
      exact he.not_hasStop hne (Nat.le_refl e)

/-- The two bytes of a stop word in two pieces. -/
theorem stopsRight_iff_split :
    ∃ s, TextStream.step { antiprompt := [[1, 2]], nCtx := 8 } {} { piece := [1] } = some s ∧
      (StopsRight { antiprompt := [[1, 2]], nCtx := 8 } s { piece := [2] } ↔
        StopSeen { antiprompt := [[1, 2]], nCtx := 8 } s.slot { piece := [2] }) := by
  have hne : ∀ word ∈ ({ antiprompt := [[1, 2]], nCtx := 8 } : TextParams).antiprompt, word ≠ [] := by decide
  have hquiet : NoStopYet { antiprompt := [[1, 2]], nCtx := 8 } {} { piece := [1] } := by
    rintro ⟨-, word, hw, i, hocc⟩
    obtain rfl := mem_singleton.mp hw
    exact absurd hocc.end_le (by simp)
  obtain ⟨s, hs⟩ : ∃ s, TextStream.step { antiprompt := [[1, 2]], nCtx := 8 } {} { piece := [1] } = some s := ⟨_, rfl⟩
  have hreach := Runs.Reaches.refl.step hquiet hs
  have htext : s.slot.generatedText = [1] := by
    obtain rfl := some.inj hs
    decide +kernel
  refine ⟨s, hs, stopsRight_iff _ hne s hreach _ ?_ ⟨[1, 2], mem_singleton_self _, 0, ?_⟩⟩
  · rw [htext]
    decide +kernel
  · rw [htext]
    exact ⟨Nat.zero_le _, prefix_refl _⟩

/-- A character in two pieces behind the stop word `x` and blank: the search skips the piece with the stop word, and
the window of the next piece is too short for it. -/
theorem stop_word_missed : ¬∀ p : TextParams, (∀ word ∈ p.antiprompt, word ≠ []) → ∀ s : TextStream,
    Runs.Reaches (TextStream.step p) (NoStopYet p) {} s → ∀ t : TokenInput,
      validateUtf8 (s.slot.generatedText ++ t.piece) = (s.slot.generatedText ++ t.piece).length →
      HasStop p.antiprompt (s.slot.generatedText ++ t.piece) → StopsRight p s t := by
  intro h
  obtain ⟨s, hs⟩ : ∃ s, TextStream.step { antiprompt := [[120, 32]], nCtx := 8 } {} { piece := [120, 32, 0xE2, 0x80] } = some s :=
    ⟨_, rfl⟩
  have hquiet : NoStopYet { antiprompt := [[120, 32]], nCtx := 8 } {} { piece := [120, 32, 0xE2, 0x80] } := by
    rintro ⟨hcomplete, -⟩
    exact absurd hcomplete (by decide +kernel)
  have hreach := Runs.Reaches.refl.step hquiet hs
  obtain rfl := some.inj hs
  obtain ⟨-, -, hstop, -⟩ := h _ (by decide) _ hreach { piece := [0x9C] } (by decide +kernel)
    ⟨[120, 32], mem_singleton_self _, 0, by decide +kernel⟩
  exact absurd hstop (by decide +kernel)

end LlamaCpp.Server
