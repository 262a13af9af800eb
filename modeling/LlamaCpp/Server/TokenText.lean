import LlamaCpp.Lib.Runs
import LlamaCpp.Lib.Search

/-!
# The text of a slot

`process_token` of server-context.cpp: the piece of a token goes to the text of the slot, stop words are looked for
and removed, and what may be sent is sent.  Text is held back while its last character is not complete
(`validate_utf8`), and while its end may be the beginning of a stop word (`string_find_partial_stop`).

A run goes on as long as `process_token` returns true.  The text that was sent is always the beginning of the text
of the slot (`TextInv`).  What is held back by the last token is never sent: all text is sent exactly if the last
token lets it go (`sent_all_iff`).
-/

namespace LlamaCpp.Server

open List Option

open Search

/-- A byte that starts a character of more than `i` bytes. -/
def cutOff (c : UInt8) (i : Nat) : Bool :=
  if c &&& 0xE0 = 0xC0 then i < 2
  else if c &&& 0xF0 = 0xE0 then i < 3
  else if c &&& 0xF8 = 0xF0 then i < 4
  else false

/-- `validate_utf8`: the length without a character that is cut off. -/
def validateUtf8 (text : List UInt8) : Nat :=
  match [1, 2, 3, 4].find? fun i => i ≤ text.length ∧ cutOff (text.getD (text.length - i) 0) i with
  | some i => text.length - i
  | none => text.length

/-- The loop of `string_find_partial_stop` from length `len` downwards. -/
def partialStopLoop (str stop : List UInt8) : Nat → Option Nat
  | 0 => none
  | len + 1 =>
    if stop[len]? = str.getLast? ∧ stop.take (len + 1) <:+ str then some (str.length - (len + 1))
    else partialStopLoop str stop len

def stringFindPartialStop (str stop : List UInt8) : Option Nat :=
  if str ≠ [] ∧ stop ≠ [] then partialStopLoop str stop (min str.length stop.length) else none

/-- Where `find_stopping_strings` finds a word. -/
def stopPosition (text : List UInt8) (lastTokenSize : Nat) (isFullStop : Bool) (word : List UInt8) : Option Nat :=
  if isFullStop then findFrom word text (text.length - (word.length + lastTokenSize)) else stringFindPartialStop text word

/-- An iteration of `find_stopping_strings`. -/
def betterStop (text : List UInt8) (lastTokenSize : Nat) (isFullStop : Bool) (stop : Option (Nat × List UInt8))
    (word : List UInt8) : Option (Nat × List UInt8) :=
  match stopPosition text lastTokenSize isFullStop word, stop with
  | none, _ => stop
  | some pos, none => some (pos, word)
  | some pos, some (stopPos, _) => if pos < stopPos then some (pos, word) else stop

/-- `find_stopping_strings`: the first position, with the word that is found there. -/
def findStoppingStrings (antiprompt : List (List UInt8)) (text : List UInt8) (lastTokenSize : Nat) (isFullStop : Bool) :
    Option (Nat × List UInt8) :=
  antiprompt.foldl (betterStop text lastTokenSize isFullStop) none

inductive StopType where
  | none
  | eos
  | word
  | limit
deriving DecidableEq

structure TextParams where
  antiprompt : List (List UInt8) := []
  nPredict : Int := -1
  nIndent : Nat := 0
  /-- `params_base.n_predict` -/
  globalNPredict : Int := -1
  ctxShift : Bool := false
  nCtx : Nat

structure TextSlot where
  generatedText : List UInt8 := []
  nSentText : Nat := 0
  stop : StopType := .none
  stoppingWord : List UInt8 := []
  hasNextToken : Bool := true
  hasNewLine : Bool := false
  lastNlPos : Nat := 0
  truncated : Bool := false

/-- A sampled token, with what the slot and the clock say when it is processed. -/
structure TokenInput where
  piece : List UInt8
  isEog : Bool := false
  nDecoded : Nat := 1
  /-- `slot.prompt.n_tokens()` -/
  nTokens : Nat := 0
  /-- `t_max_predict_ms` is set and has passed. -/
  late : Bool := false

def hasBudget (p : TextParams) (nDecoded : Nat) : Bool :=
  if p.nPredict = -1 ∧ p.globalNPredict = -1 then true
  else if p.nPredict ≠ -1 then 0 < p.nPredict - nDecoded
  else 0 < p.globalNPredict - nDecoded

namespace TextSlot

variable (p : TextParams) (t : TokenInput) (s : TextSlot)

/-- The search for stop words in complete text, and the text to send. -/
def searchStop : TextSlot × List UInt8 :=
  let pos := min s.nSentText s.generatedText.length
  let strTest := s.generatedText.drop pos
  match findStoppingStrings p.antiprompt strTest t.piece.length true with
  | some (stopPos, word) =>
    let text := s.generatedText.take (pos + stopPos)
    let toSend := text.drop (min s.nSentText text.length)
    ({ s with
        generatedText := text
        stop := .word
        stoppingWord := word
        hasNextToken := false
        nSentText := s.nSentText + toSend.length }, toSend)
  | none =>
    if t.isEog ∨ findStoppingStrings p.antiprompt strTest t.piece.length false = none then
      ({ s with nSentText := s.nSentText + strTest.length }, strTest)
    else (s, [])

def checkContext : TextSlot :=
  if !p.ctxShift ∧ p.nCtx ≤ t.nTokens + 1 then { s with truncated := true, stop := .limit, hasNextToken := false } else s

def checkBudget : TextSlot :=
  if 0 < t.nDecoded ∧ s.hasNextToken ∧ ¬hasBudget p t.nDecoded then { s with stop := .limit, hasNextToken := false } else s

/-- The number of blanks and tabs at a position. -/
def indentAt (text : List UInt8) (pos : Nat) : Nat := ((text.drop pos).takeWhile fun c => c = 32 ∨ c = 9).length

/-- The line at `last_nl_pos` is not indented enough. -/
def IndentStops (text : List UInt8) : Prop :=
  s.hasNewLine = true ∧ 0 < p.nIndent ∧ 0 < s.lastNlPos ∧ s.lastNlPos + indentAt text s.lastNlPos < text.length ∧
    indentAt text s.lastNlPos < p.nIndent

instance (text : List UInt8) : Decidable (s.IndentStops p text) := inferInstanceAs (Decidable (_ ∧ _ ∧ _ ∧ _ ∧ _))

def checkIndent : TextSlot :=
  let s := if s.IndentStops p s.generatedText then
      { s with
        stop := .limit
        hasNextToken := false
        generatedText := s.generatedText.take (s.lastNlPos + indentAt s.generatedText s.lastNlPos) }
    else s
  if s.hasNewLine ∧ 0 < p.nIndent then
    match findFrom [10] s.generatedText s.lastNlPos with
    | some pos => { s with lastNlPos := pos + 1 }
    | none => s
  else s

def checkNewLine (textToSend : List UInt8) : TextSlot :=
  if 10 ∈ textToSend then
    if t.late then { s with hasNewLine := true, stop := .limit, hasNextToken := false } else { s with hasNewLine := true }
  else s

def checkEog : TextSlot := if t.isEog then { s with stop := .eos, hasNextToken := false } else s

def push : TextSlot := { s with generatedText := s.generatedText ++ t.piece, hasNextToken := true }

/-- `process_token`, with the text of the partial response if there is one. -/
def processToken : TextSlot × Option (List UInt8) :=
  let s := s.push t
  let incomplete : Prop := validateUtf8 s.generatedText < s.generatedText.length
  let r := if incomplete then (s, t.piece) else s.searchStop p t
  let s := if incomplete then { r.1 with hasNextToken := true } else r.1
  let s := ((s.checkContext p t).checkBudget p t).checkIndent p
  ((s.checkNewLine t r.2).checkEog t, if incomplete then none else some r.2)

end TextSlot

structure TextStream where
  slot : TextSlot := {}
  sent : List UInt8 := []

namespace TextStream

variable (p : TextParams) (s : TextStream) (t : TokenInput)

def process : TextStream where
  slot := (s.slot.processToken p t).1
  sent := s.sent ++ (s.slot.processToken p t).2.getD []

/-- A token after which the run goes on. -/
def step : Option TextStream := if (s.process p t).slot.hasNextToken then some (s.process p t) else none

end TextStream

/-- The last token lets go what was held back: its character is complete, and it ends the text by a stop word or
by the end of generation, or its end is no beginning of a stop word. -/
def Released (p : TextParams) (s : TextSlot) (t : TokenInput) : Prop :=
  let text := s.generatedText ++ t.piece
  let unsent := text.drop s.nSentText
  validateUtf8 text = text.length ∧
    (findStoppingStrings p.antiprompt unsent t.piece.length true ≠ none ∨ t.isEog = true ∨
      findStoppingStrings p.antiprompt unsent t.piece.length false = none)

/-! ## The searches -/

section Searches

variable {text stop : List UInt8} {words done : List (List UInt8)} {last : Nat} {full : Bool}

theorem validateUtf8_le (text : List UInt8) : validateUtf8 text ≤ text.length := by
  unfold validateUtf8
  split
  · exact Nat.sub_le _ _
  · exact Nat.le_refl _

/-- Among these words this is the first position, and the word there. -/
def IsFirstStop (text : List UInt8) (last : Nat) (full : Bool) (words : List (List UInt8)) : Option (Nat × List UInt8) → Prop
  | none => ∀ word ∈ words, stopPosition text last full word = none
  | some (pos, word) => word ∈ words ∧ stopPosition text last full word = some pos ∧
      ∀ word' ∈ words, ∀ pos' ∈ stopPosition text last full word', pos ≤ pos'

theorem IsFirstStop.snoc {acc : Option (Nat × List UInt8)} (h : IsFirstStop text last full done acc) (word : List UInt8) :
    IsFirstStop text last full (done ++ [word]) (betterStop text last full acc word) := by
  have hmem {word' : List UInt8} (hw : word' ∈ done ++ [word]) : word' ∈ done ∨ word' = word :=
    (List.mem_append.mp hw).imp_right mem_singleton.mp
  have hlast : word ∈ done ++ [word] := mem_append_right _ (mem_singleton_self _)
  unfold betterStop
  cases hpos : stopPosition text last full word with
  | none =>
    cases acc with
    | none =>
      intro word' hw
      rcases hmem hw with hw | rfl
      · exact h word' hw
      · exact hpos
    | some best =>
      refine ⟨mem_append_left _ h.1, h.2.1, fun word' hw pos' hp => ?_⟩
      rcases hmem hw with hw | rfl
      · exact h.2.2 word' hw pos' hp
      · rw [hpos] at hp
        nomatch hp
  | some pos =>
    cases acc with
    | none =>
      refine ⟨hlast, hpos, fun word' hw pos' hp => ?_⟩
      rcases hmem hw with hw | rfl
      · rw [h word' hw] at hp
        nomatch hp
      · exact Nat.le_of_eq (some.inj (hpos.symm.trans hp))
    | some best =>
      dsimp only
      split
      · rename_i hlt
        refine ⟨hlast, hpos, fun word' hw pos' hp => ?_⟩
        rcases hmem hw with hw | rfl
        · exact Nat.le_trans (Nat.le_of_lt hlt) (h.2.2 word' hw pos' hp)
        · exact Nat.le_of_eq (some.inj (hpos.symm.trans hp))
      · rename_i hnot
        refine ⟨mem_append_left _ h.1, h.2.1, fun word' hw pos' hp => ?_⟩
        rcases hmem hw with hw | rfl
        · exact h.2.2 word' hw pos' hp
        · exact some.inj (hpos.symm.trans hp) ▸ Nat.not_lt.mp hnot

theorem findStoppingStrings_spec (words : List (List UInt8)) (text : List UInt8) (last : Nat) (full : Bool) :
    IsFirstStop text last full words (findStoppingStrings words text last full) := by
  have hloop : ∀ rest done acc, IsFirstStop text last full done acc →
      IsFirstStop text last full (done ++ rest) (rest.foldl (betterStop text last full) acc) := by
    intro rest
    induction rest with
    | nil =>
      intro done acc h
      rw [append_nil]
      exact h
    | cons word rest ih =>
      intro done acc h
      rw [foldl_cons, append_cons]
      exact ih _ _ (h.snoc word)
  exact hloop words [] none fun _ hw => absurd hw not_mem_nil

/-- A partial stop word is found where there is text. -/
theorem ne_nil_of_partial (h : findStoppingStrings words text last false ≠ none) : text ≠ [] := by
  rintro rfl
  have hspec := findStoppingStrings_spec words [] last false
  cases hfind : findStoppingStrings words [] last false with
  | none => exact h hfind
  | some best =>
    rw [hfind] at hspec
    have hpos := hspec.2.1
    simp [stopPosition, stringFindPartialStop] at hpos

end Searches

/-! ## Runs -/

section Stream

variable {p : TextParams} {s : TextStream} {t : TokenInput}

/-- The part of `process_token` behind the search. -/
def TextSlot.finish (p : TextParams) (t : TokenInput) (toSend : List UInt8) (s : TextSlot) : TextSlot :=
  ((((s.checkContext p t).checkBudget p t).checkIndent p).checkNewLine t toSend).checkEog t

theorem processToken_incomplete {s : TextSlot} (h : validateUtf8 (s.push t).generatedText < (s.push t).generatedText.length) :
    s.processToken p t = ((s.push t).finish p t t.piece, none) := by
  unfold TextSlot.processToken
  simp only [if_pos h]
  rfl

theorem processToken_complete {s : TextSlot} (h : ¬validateUtf8 (s.push t).generatedText < (s.push t).generatedText.length) :
    s.processToken p t = (((s.push t).searchStop p t).1.finish p t ((s.push t).searchStop p t).2, some ((s.push t).searchStop p t).2) := by
  unfold TextSlot.processToken
  simp only [if_neg h]
  rfl

/-- What the checks behind the search change, if there is no indentation to check. -/
theorem finish_text (hindent : p.nIndent = 0) (toSend : List UInt8) (s : TextSlot) :
    (s.finish p t toSend).generatedText = s.generatedText ∧ (s.finish p t toSend).nSentText = s.nSentText ∧
      ((s.finish p t toSend).hasNextToken = true → s.hasNextToken = true) := by
  have hskip (s : TextSlot) : s.checkIndent p = s := by
    unfold TextSlot.checkIndent TextSlot.IndentStops
    simp [hindent]
  unfold TextSlot.finish
  rw [hskip]
  unfold TextSlot.checkEog TextSlot.checkNewLine TextSlot.checkBudget TextSlot.checkContext
  split_ifs <;> simp

/-- The text that was sent is the beginning of the text of the slot; if it is all of it, the text is complete. -/
structure TextInv (s : TextStream) : Prop where
  sent : s.sent = s.slot.generatedText.take s.slot.nSentText
  le : s.slot.nSentText ≤ s.slot.generatedText.length
  complete : s.slot.nSentText = s.slot.generatedText.length →
    validateUtf8 s.slot.generatedText = s.slot.generatedText.length

theorem TextInv.push (h : TextInv s) (t : TokenInput) :
    s.sent = (s.slot.push t).generatedText.take s.slot.nSentText ∧
      s.slot.nSentText ≤ (s.slot.push t).generatedText.length := by
  refine ⟨?_, ?_⟩
  · show s.sent = (s.slot.generatedText ++ t.piece).take s.slot.nSentText
    rw [take_append_of_le_length h.le]
    exact h.sent
  · show s.slot.nSentText ≤ (s.slot.generatedText ++ t.piece).length
    rw [length_append]
    exact Nat.le_trans h.le (Nat.le_add_right _ _)

/-- The part of the invariant that holds at the end of a run too. -/
structure SentBeginning (s : TextStream) : Prop where
  sent : s.sent = s.slot.generatedText.take s.slot.nSentText
  le : s.slot.nSentText ≤ s.slot.generatedText.length

theorem SentBeginning.all_iff (h : SentBeginning s) :
    s.sent = s.slot.generatedText ↔ s.slot.nSentText = s.slot.generatedText.length := by
  rw [h.sent]
  constructor
  · intro heq
    have hlen := congrArg List.length heq
    rw [length_take] at hlen
    have hle := h.le
    omega
  · intro hlen
    rw [hlen, take_length]

/-- The search sends the text up to a stop word, or all of it, or nothing. -/
theorem searchStop_spec {s : TextSlot} {sent : List UInt8} (hsent : sent = s.generatedText.take s.nSentText)
    (hle : s.nSentText ≤ s.generatedText.length) :
    sent ++ (s.searchStop p t).2 = (s.searchStop p t).1.generatedText.take (s.searchStop p t).1.nSentText ∧
    (s.searchStop p t).1.nSentText ≤ (s.searchStop p t).1.generatedText.length ∧
    ((s.searchStop p t).1.nSentText = (s.searchStop p t).1.generatedText.length ↔
      findStoppingStrings p.antiprompt (s.generatedText.drop s.nSentText) t.piece.length true ≠ none ∨ t.isEog = true ∨
        findStoppingStrings p.antiprompt (s.generatedText.drop s.nSentText) t.piece.length false = none) ∧
    (findStoppingStrings p.antiprompt (s.generatedText.drop s.nSentText) t.piece.length true ≠ none →
      (s.searchStop p t).1.hasNextToken = false) ∧
    (findStoppingStrings p.antiprompt (s.generatedText.drop s.nSentText) t.piece.length true = none →
      (s.searchStop p t).1.generatedText = s.generatedText) := by
  unfold TextSlot.searchStop
  rw [Nat.min_eq_left hle]
  dsimp only
  cases hfull : findStoppingStrings p.antiprompt (s.generatedText.drop s.nSentText) t.piece.length true with
  | some found =>
    obtain ⟨stopPos, word⟩ := found
    dsimp only
    have hlen : s.nSentText ≤ (s.generatedText.take (s.nSentText + stopPos)).length := by
      rw [length_take]
      omega
    have hnew : s.nSentText + ((s.generatedText.take (s.nSentText + stopPos)).drop s.nSentText).length =
        (s.generatedText.take (s.nSentText + stopPos)).length := by
      rw [length_drop]
      omega
    rw [Nat.min_eq_left hlen, hnew, take_length]
    refine ⟨?_, Nat.le_refl _, iff_of_true rfl (Or.inl nofun), fun _ => rfl, nofun⟩
    have hbegin : sent = (s.generatedText.take (s.nSentText + stopPos)).take s.nSentText := by
      rw [take_take, Nat.min_eq_left (Nat.le_add_right _ _), hsent]
    rw [hbegin, take_append_drop]
  | none =>
    dsimp only
    have hnew : s.nSentText + (s.generatedText.drop s.nSentText).length = s.generatedText.length := by
      rw [length_drop]
      omega
    split
    · rename_i hsend
      rw [hnew, take_length]
      refine ⟨?_, Nat.le_refl _, iff_of_true rfl (Or.inr hsend), fun hne => absurd rfl hne, fun _ => rfl⟩
      rw [hsent, take_append_drop]
    · rename_i hheld
      rw [append_nil]
      refine ⟨hsent, hle, iff_of_false (fun heq => ?_) ?_, fun hne => absurd rfl hne, fun _ => rfl⟩
      · refine ne_nil_of_partial (fun hnone => hheld (Or.inr hnone)) ?_
        rw [heq, drop_length]
      · rintro (hne | hsend)
        · exact hne rfl
        · exact hheld hsend

/-- After a token the text that was sent is the beginning of the text, and all of it if the token has let it go. -/
theorem process_spec (hindent : p.nIndent = 0) (h : TextInv s) (t : TokenInput) :
    SentBeginning (s.process p t) ∧
      ((s.process p t).slot.nSentText = (s.process p t).slot.generatedText.length ↔ Released p s.slot t) ∧
      ((s.process p t).slot.hasNextToken = true →
        (s.process p t).slot.generatedText = s.slot.generatedText ++ t.piece) := by
  obtain ⟨hsent, hle⟩ := h.push t
  have htext : (s.slot.push t).generatedText = s.slot.generatedText ++ t.piece := rfl
  unfold TextStream.process Released
  by_cases hcut : validateUtf8 (s.slot.push t).generatedText < (s.slot.push t).generatedText.length
  · obtain ⟨htext', hn, -⟩ := @finish_text p t hindent t.piece (s.slot.push t)
    rw [processToken_incomplete hcut]
    rw [getD_none, append_nil]
    refine ⟨⟨?_, ?_⟩, iff_of_false (fun heq => ?_) fun hrel => ?_, fun _ => htext'⟩
    · dsimp only
      rw [htext', hn]
      exact hsent
    · dsimp only
      rw [htext', hn]
      exact hle
    · rw [htext', hn] at heq
      -- nothing was held back before, and the piece is empty
      have hlen : s.slot.nSentText = s.slot.generatedText.length + t.piece.length := by
        rw [← length_append]
        exact heq
      have hpiece : t.piece = [] := eq_nil_of_length_eq_zero (by have := h.le; omega)
      have hcomplete := h.complete (by rw [hpiece] at hlen; exact hlen)
      rw [htext, hpiece, append_nil, hcomplete] at hcut
      exact Nat.lt_irrefl _ hcut
    · rw [htext, hrel.1] at hcut
      exact Nat.lt_irrefl _ hcut
  · obtain ⟨hsend, hle', hall, hstop, hkeep⟩ := @searchStop_spec p t (s.slot.push t) s.sent hsent hle
    obtain ⟨htext', hn, hnext⟩ := @finish_text p t hindent ((s.slot.push t).searchStop p t).2 ((s.slot.push t).searchStop p t).1
    rw [processToken_complete hcut]
    rw [getD_some]
    have hcomplete : validateUtf8 (s.slot.push t).generatedText = (s.slot.push t).generatedText.length :=
      Nat.le_antisymm (validateUtf8_le _) (Nat.not_lt.mp hcut)
    refine ⟨⟨?_, ?_⟩, ?_, fun hgo => ?_⟩
    · dsimp only
      rw [htext', hn]
      exact hsend
    · dsimp only
      rw [htext', hn]
      exact hle'
    · rw [htext', hn, hall]
      exact (and_iff_right hcomplete).symm
    · rw [htext']
      refine hkeep (not_not.mp fun hne => ?_)
      rw [hnext hgo] at hstop
      exact absurd (hstop hne) (by decide)

theorem textInv_init : TextInv {} := ⟨rfl, Nat.le_refl _, fun _ => rfl⟩

theorem TextInv.step (hindent : p.nIndent = 0) (h : TextInv s) {s' : TextStream} (hrun : s.step p t = some s') :
    TextInv s' := by
  obtain ⟨hgo, hrun⟩ := ite_none_right_eq_some.mp hrun
  obtain rfl := some.inj hrun
  obtain ⟨hsent, hall, htext⟩ := process_spec hindent h t
  refine ⟨hsent.sent, hsent.le, fun heq => ?_⟩
  rw [htext hgo]
  exact (hall.mp heq).1

end Stream

/-- In every run, all text of the slot was sent behind a token exactly if the token lets go what was held back. -/
theorem sent_all_iff (p : TextParams) (hindent : p.nIndent = 0) (s : TextStream)
    (h : Runs.Reaches (TextStream.step p) (fun _ _ => True) {} s) (t : TokenInput) :
    (s.process p t).sent = (s.process p t).slot.generatedText ↔ Released p s.slot t := by
  have hinv : TextInv s := h.inv (fun _ _ _ hs _ hrun => hs.step hindent hrun) textInv_init
  obtain ⟨hsent, hall, -⟩ := process_spec hindent hinv t
  exact hsent.all_iff.trans hall

/-- A token with the beginning of a stop word, and the token that ends generation. -/
theorem sent_all_iff_eog :
    ∃ s, TextStream.step { antiprompt := [[1, 2]], nCtx := 8 } {} { piece := [3, 1] } = some s ∧
      ((s.process { antiprompt := [[1, 2]], nCtx := 8 } { piece := [], isEog := true }).sent =
        (s.process { antiprompt := [[1, 2]], nCtx := 8 } { piece := [], isEog := true }).slot.generatedText ↔
      Released { antiprompt := [[1, 2]], nCtx := 8 } s.slot { piece := [], isEog := true }) := by
  have hrun : (TextStream.step { antiprompt := [[1, 2]], nCtx := 8 } {} { piece := [3, 1] }).isSome := by decide +kernel
  obtain ⟨s, hs⟩ := isSome_iff_exists.mp hrun
  exact ⟨s, hs, sent_all_iff _ rfl s (Runs.Reaches.refl.step trivial hs) _⟩

/-- The budget ends with a token that may begin a stop word: its text is not sent. -/
theorem held_text_not_sent : ¬∀ (p : TextParams), p.nIndent = 0 → ∀ s : TextStream,
    Runs.Reaches (TextStream.step p) (fun _ _ => True) {} s → ∀ t : TokenInput, (s.process p t).slot.hasNextToken = false →
      (s.process p t).sent = (s.process p t).slot.generatedText := by
  intro h
  have hsent := h { antiprompt := [[1, 2]], nPredict := 1, nCtx := 8 } rfl {} .refl { piece := [3, 1] } (by decide +kernel)
  exact absurd hsent (by decide +kernel)

end LlamaCpp.Server
