import LlamaCpp.Lib.FormLanguage
import Mathlib

/-!
# The text of a grammar rule

Rules written with literals `"ab"`, character ranges `[a-z]`, names, groups `( | )` and the
suffixes `* + ? {m,n}`.  `read` goes through a text character by character and builds an
expression; `Expr.lang` is the language of an expression, over any alphabet that has a letter
for each character, when names stand for given languages.

The rules at the end say what a text means from what its parts mean.  They are about a text
inside a longer one: `SeqText` for the items of a sequence, `ItemText` for one item, `AltsText`
for alternates.
-/

namespace RuleText

open List Option

open FormLanguage (repeated)

/-! ## Expressions -/

inductive Expr where
  | literal (s : List Char)
  | chars (negated : Bool) (ranges : List (Char × Char))
  | any
  | name (n : List Char)
  | empty
  | cat (a b : Expr)
  | alt (a b : Expr)
  | rep (e : Expr) (m : Nat) (n : Option Nat)
deriving DecidableEq

/-- The character is in one of the ranges. -/
def inRanges (ranges : List (Char × Char)) (c : Char) : Bool :=
  ranges.any fun r => decide (r.1 ≤ c) && decide (c ≤ r.2)

universe u

section Meaning

variable {α : Type u} (letter : Char → α) (env : List Char → Language α)

/-- The words of one letter whose character satisfies `P`. -/
def letters (P : Char → Prop) : Language α := {w | ∃ c, P c ∧ w = [letter c]}

def Expr.lang : Expr → Language α
  | .literal s => {s.map letter}
  | .chars negated ranges => letters letter fun c => inRanges ranges c ≠ negated
  | .any => letters letter fun _ => True
  | .name n => env n
  | .empty => 1
  | .cat a b => a.lang * b.lang
  | .alt a b => a.lang + b.lang
  | .rep e m n => repeated e.lang m n

end Meaning

/-! ## Reading -/

def isWordChar (c : Char) : Bool := c.isAlphanum || c == '-'

/-- Hexadecimal digits. -/
def hexDigit (c : Char) : Option Nat :=
  if c.isDigit then some (c.toNat - '0'.toNat)
  else if 'a' ≤ c ∧ c ≤ 'f' then some (c.toNat - 'a'.toNat + 10)
  else if 'A' ≤ c ∧ c ≤ 'F' then some (c.toNat - 'A'.toNat + 10)
  else none

/-- The character behind a backslash. -/
def escaped (c : Char) : Option Char :=
  if c = 'n' then some '\n'
  else if c = 'r' then some '\r'
  else if c = 't' then some '\t'
  else if c = '\\' ∨ c = '"' ∨ c = '[' ∨ c = ']' then some c
  else none

/-- The characters that a text stands for, and whether they were escaped. -/
def unescape : List Char → Option (List (Char × Bool))
  | [] => some []
  | '\\' :: 'x' :: a :: b :: cs => do
      let a ← hexDigit a
      let b ← hexDigit b
      let cs ← unescape cs
      return (Char.ofNat (16 * a + b), true) :: cs
  | '\\' :: c :: cs => do
      let c ← escaped c
      let cs ← unescape cs
      return (c, true) :: cs
  | c :: cs => do
      let cs ← unescape cs
      return (c, false) :: cs

/-- Ranges `a-b` and single characters. -/
def toRanges : List (Char × Bool) → List (Char × Char)
  | (a, _) :: ('-', false) :: (b, _) :: cs => (a, b) :: toRanges cs
  | (a, _) :: cs => (a, a) :: toRanges cs
  | [] => []

/-- What stands between brackets. -/
def readChars : List Char → Option Expr
  | '^' :: cs => (unescape cs).map fun cs => .chars true (toRanges cs)
  | cs => (unescape cs).map fun cs => .chars false (toRanges cs)

def readNat (digits : List Char) : Option Nat :=
  if digits ≠ [] ∧ digits.all Char.isDigit then some (Nat.ofDigitChars 10 digits 0) else none

/-- What stands between braces. -/
def readBounds (cs : List Char) : Option (Nat × Option Nat) := do
  let first := cs.takeWhile (· ≠ ',')
  let m ← readNat first
  match cs.drop first.length with
  | [] => return (m, some m)
  | [_] => return (m, none)
  | _ :: second => do
      let n ← readNat second
      return (m, some n)

/-- Alternates that are being read; the last item comes first. -/
structure Frame where
  alts : List Expr := []
  items : List Expr := []

/-- A sequence, from its items in reverse. -/
def seqOf (items : List Expr) : Expr := items.foldl (fun e item => .cat item e) .empty

/-- The alternates that were read. -/
def Frame.close (f : Frame) : Expr := f.alts.foldr .alt (seqOf f.items)

inductive Mode where
  | plain
  | name (cs : List Char)
  | literal (cs : List Char) (escaping : Bool)
  | chars (cs : List Char) (escaping : Bool)
  | braces (cs : List Char)

structure State where
  mode : Mode := .plain
  top : Frame := {}
  outer : List Frame := []

namespace State

def push (s : State) (e : Expr) : State :=
  { mode := .plain, top := { s.top with items := e :: s.top.items }, outer := s.outer }

def pushAll (s : State) (es : List Expr) : State := es.foldl push s

/-- A suffix, on the last item. -/
def quantify (s : State) (m : Nat) (n : Option Nat) : Option State :=
  match s.top.items with
  | [] => none
  | e :: items =>
    some { mode := .plain, top := { s.top with items := .rep e m n :: items }, outer := s.outer }

/-- A character outside of literals, ranges, names and braces. -/
def plain (s : State) (c : Char) : Option State :=
  if c = ' ' ∨ c = '\t' ∨ c = '\n' then some s
  else if c = '"' then some { s with mode := .literal [] false }
  else if c = '[' then some { s with mode := .chars [] false }
  else if c = '(' then some { mode := .plain, top := {}, outer := s.top :: s.outer }
  else if c = ')' then
    match s.outer with
    | [] => none
    | f :: outer => some (push { mode := .plain, top := f, outer := outer } s.top.close)
  else if c = '|' then some { s with top := { alts := s.top.alts ++ [seqOf s.top.items] } }
  else if c = '*' then s.quantify 0 none
  else if c = '+' then s.quantify 1 none
  else if c = '?' then s.quantify 0 (some 1)
  else if c = '{' then some { s with mode := .braces [] }
  else if c = '.' then some (s.push .any)
  else if isWordChar c then some { s with mode := .name [c] }
  else none

def step (s : State) (c : Char) : Option State :=
  match s.mode with
  | .plain => s.plain c
  | .name cs =>
    if isWordChar c then some { s with mode := .name (cs ++ [c]) } else (s.push (.name cs)).plain c
  | .literal cs true => some { s with mode := .literal (cs ++ [c]) false }
  | .literal cs false =>
    if c = '"' then (unescape cs).map fun cs => s.push (.literal (cs.map Prod.fst))
    else some { s with mode := .literal (cs ++ [c]) (c == '\\') }
  | .chars cs true => some { s with mode := .chars (cs ++ [c]) false }
  | .chars cs false =>
    if c = ']' then (readChars cs).map s.push
    else some { s with mode := .chars (cs ++ [c]) (c == '\\') }
  | .braces cs =>
    if c = '}' then (readBounds cs).bind fun bounds => s.quantify bounds.1 bounds.2
    else some { s with mode := .braces (cs ++ [c]) }

def run (s : State) (text : List Char) : Option State := text.foldlM step s

end State

/-- The expression of a text; the blank ends a name. -/
def read (text : List Char) : Option Expr :=
  match State.run {} (text ++ [' ']) with
  | some { mode := .plain, top := top, outer := [] } => some top.close
  | _ => none

/-- `a`, or two to three times `b-c` in front of a digit. -/
example : read "\"a\" | (b-c{2,3} [0-9])".toList =
    some (.alt (.cat (.literal ['a']) .empty)
      (.cat (.cat (.rep (.name "b-c".toList) 2 (some 3)) (.cat (.chars false [('0', '9')]) .empty))
        .empty)) := by decide

namespace State

theorem run_cons (s : State) (c : Char) (text : List Char) :
    run s (c :: text) = (s.step c).bind fun s => run s text := rfl

theorem run_append (s : State) (a b : List Char) : run s (a ++ b) = (run s a).bind fun s => run s b := foldlM_append

@[simp] theorem push_mode (s : State) (e : Expr) : (s.push e).mode = .plain := rfl

@[simp] theorem pushAll_cons (s : State) (e : Expr) (es : List Expr) :
    s.pushAll (e :: es) = (s.push e).pushAll es := rfl

theorem pushAll_append (s : State) (es fs : List Expr) :
    s.pushAll (es ++ fs) = (s.pushAll es).pushAll fs := foldl_append

variable {s : State}

theorem pushAll_mode (hs : s.mode = .plain) (es : List Expr) : (s.pushAll es).mode = .plain := by
  induction es generalizing s with
  | nil => exact hs
  | cons e es ih => exact ih rfl

theorem pushAll_eq (hs : s.mode = .plain) (es : List Expr) : s.pushAll es =
      { mode := .plain, top := { s.top with items := es.reverse ++ s.top.items }, outer := s.outer } := by
  induction es generalizing s with
  | nil =>
    obtain ⟨mode, top, outer⟩ := s
    obtain rfl : mode = .plain := hs
    rfl
  | cons e es ih =>
    rw [pushAll_cons, ih rfl]
    simp [push]

theorem step_plain (hs : s.mode = .plain) (c : Char) : s.step c = s.plain c := by
  unfold step
  rw [hs]

end State

/-! ## Texts in front of other texts -/

open State (run)

/-- In front of a text that does not go on with a name, `t` adds the items `es`. -/
def Pushes (t : List Char) (es : List Expr) : Prop :=
  ∀ s : State, s.mode = .plain → ∀ c rest, isWordChar c = false →
    run s (t ++ c :: rest) = run (s.pushAll es) (c :: rest)

/-- In front of such a text, and at the start of a sequence, `t` adds the alternates `alts` and
starts another one with the items `es`. -/
def Alternates (t : List Char) (alts es : List Expr) : Prop :=
  ∀ s : State, s.mode = .plain → s.top.items = [] → ∀ c rest, isWordChar c = false →
    run s (t ++ c :: rest) =
      run { mode := .plain, top := { alts := s.top.alts ++ alts, items := es.reverse },
            outer := s.outer } (c :: rest)

/-- `t` does not go on with the name in front of it. -/
def Opens (t : List Char) : Prop := ∀ c ∈ t.head?, isWordChar c = false

theorem opens_nil : Opens [] := by simp [Opens]

variable {c : Char} {es as : List Expr} {e : Expr} {cs : List Char}

theorem opens_cons (t : List Char) (h : isWordChar c = false) : Opens (c :: t) := by
  simpa [Opens] using h

theorem pushes_nil : Pushes [] [] := fun _ _ _ _ _ => rfl

theorem Pushes.append {a b : List Char} {fs : List Expr} (ha : Pushes a es) (hb : Pushes b fs)
    (hopens : Opens b) : Pushes (a ++ b) (es ++ fs) := by
  intro s hs c rest hc
  rw [append_assoc, State.pushAll_append, ← hb _ (State.pushAll_mode hs es) c rest hc]
  cases b with
  | nil => exact ha s hs c rest hc
  | cons d b => exact ha s hs d (b ++ c :: rest) (hopens d rfl)

theorem pushes_blank : Pushes [' '] [] := by
  intro s hs c rest hc
  have hstep : s.step ' ' = some s := State.step_plain hs _
  rw [singleton_append, State.run_cons, hstep]
  rfl

/-- A suffix takes the last item. -/
theorem Pushes.quantify {t suffix : List Char} {m : Nat} {n : Option Nat} (h : Pushes t [e])
    (hopens : Opens suffix) (hne : suffix ≠ [])
    (hsuffix : ∀ s : State, s.mode = .plain → run s suffix = s.quantify m n) :
    Pushes (t ++ suffix) [.rep e m n] := by
  intro s hs c rest hc
  cases suffix with
  | nil => exact absurd rfl hne
  | cons d suffix =>
    have hpushed : (s.pushAll [e]).quantify m n = some (s.pushAll [.rep e m n]) := rfl
    rw [append_assoc, cons_append, h s hs d (suffix ++ c :: rest) (hopens d rfl),
      ← cons_append, State.run_append, hsuffix _ (State.pushAll_mode hs _), hpushed]
    rfl

theorem plain_word (hc : isWordChar c = true) (s : State) : s.plain c = some { s with mode := .name [c] } := by
  have hne : ∀ d, isWordChar d = false → c ≠ d := by
    rintro d hd rfl
    rw [hc] at hd
    cases hd
  unfold State.plain
  simp [hc, hne ' ' rfl, hne '\t' rfl, hne '\n' rfl, hne '"' rfl, hne '[' rfl, hne '(' rfl, hne ')' rfl,
    hne '|' rfl, hne '*' rfl, hne '+' rfl, hne '?' rfl, hne '{' rfl, hne '.' rfl]

theorem pushes_name {n : List Char} (hne : n ≠ []) (hword : ∀ c ∈ n, isWordChar c = true) : Pushes n [.name n] := by
  have hgo : ∀ (cs read : List Char) (s : State), s.mode = .name read → (∀ c ∈ cs, isWordChar c = true) →
      ∀ c rest, isWordChar c = false → run s (cs ++ c :: rest) = run (s.push (.name (read ++ cs))) (c :: rest) := by
    intro cs
    induction cs with
    | nil =>
      intro read s hs _ c rest hc
      have hstep : s.step c = (s.push (.name read)).plain c := by
        unfold State.step
        rw [hs]
        exact if_neg (by simp [hc])
      rw [List.nil_append, List.append_nil, State.run_cons, State.run_cons, hstep,
        State.step_plain (State.push_mode s _)]
    | cons d cs ih =>
      intro read s hs hall c rest hc
      have hstep : s.step d = some { s with mode := .name (read ++ [d]) } := by
        unfold State.step
        rw [hs]
        exact if_pos (hall d List.mem_cons_self)
      rw [List.cons_append, State.run_cons, hstep]
      have hrest := ih (read ++ [d]) { s with mode := .name (read ++ [d]) } rfl
        (fun c hc => hall c (List.mem_cons_of_mem d hc)) c rest hc
      rw [List.append_assoc] at hrest
      exact hrest
  intro s hs c rest hc
  cases n with
  | nil => exact absurd rfl hne
  | cons d n =>
    have hstep : s.step d = some { s with mode := .name [d] } := by
      rw [State.step_plain hs, plain_word (hword d List.mem_cons_self)]
    rw [List.cons_append, State.run_cons, hstep]
    exact hgo n [d] { s with mode := .name [d] } rfl
      (fun c hc => hword c (List.mem_cons_of_mem d hc)) c rest hc

/-- A text that leaves the state plain by itself. -/
theorem pushes_of_run {t : List Char}
    (h : ∀ top outer, run ⟨.plain, top, outer⟩ t = some (State.push ⟨.plain, top, outer⟩ e)) :
    Pushes t [e] := by
  intro s hs c rest hc
  obtain ⟨mode, top, outer⟩ := s
  obtain rfl : mode = .plain := hs
  rw [State.run_append, h]
  rfl

theorem unescape_plain (h : ∀ c ∈ cs, c ≠ '\\') : unescape cs = some (cs.map (·, false)) := by
  induction cs with
  | nil => rfl
  | cons c cs ih =>
    have hc := h c List.mem_cons_self
    rw [unescape]
    · rw [ih fun d hd => h d (List.mem_cons_of_mem c hd)]
      rfl
    · exact fun a b rest heq => absurd heq hc
    · exact fun a rest heq => absurd heq hc

theorem toRanges_plain (h : ∀ c ∈ cs, c ≠ '-') : toRanges (cs.map (·, false)) = cs.map fun c => (c, c) := by
  induction cs with
  | nil => rfl
  | cons c cs ih =>
    have hcs : ∀ d ∈ cs, d ≠ '-' := fun d hd => h d (List.mem_cons_of_mem c hd)
    rw [List.map_cons, toRanges, ih hcs, List.map_cons]
    rintro b esc rest heq
    cases cs with
    | nil => cases heq
    | cons d cs =>
      obtain ⟨hd, -⟩ := List.cons.inj heq
      exact hcs d List.mem_cons_self (Prod.mk.inj hd).1

theorem inRanges_plain : inRanges (cs.map fun c => (c, c)) c = true ↔ c ∈ cs := by
  simp only [inRanges, List.any_map, List.any_eq_true, Function.comp_apply, Bool.and_eq_true, decide_eq_true_eq]
  constructor
  · rintro ⟨d, hd, hle, hge⟩
    rwa [le_antisymm hge hle]
  · exact fun hc => ⟨c, hc, le_refl c, le_refl c⟩

/-- Characters that only collect. -/
theorem run_collect {f : List Char → Mode} {top : Frame} {outer : List Frame}
    (h : ∀ c ∈ cs, ∀ read, State.step ⟨f read, top, outer⟩ c = some ⟨f (read ++ [c]), top, outer⟩)
    (read : List Char) : run ⟨f read, top, outer⟩ cs = some ⟨f (read ++ cs), top, outer⟩ := by
  induction cs generalizing read with
  | nil => simp [State.run]
  | cons c cs ih =>
    rw [State.run_cons, h c List.mem_cons_self, Option.bind_some, ih fun d hd => h d (List.mem_cons_of_mem c hd)]
    simp

/-- Text up to the closing quote. -/
theorem run_literal (h : ∀ c ∈ cs, c ≠ '"' ∧ c ≠ '\\') (read : List Char) (top : Frame)
    (outer : List Frame) :
    run ⟨.literal read false, top, outer⟩ cs = some ⟨.literal (read ++ cs) false, top, outer⟩ :=
  run_collect (f := (.literal · false)) (fun c hc read => by simp [State.step, h c hc]) read

/-- Text up to the closing bracket. -/
theorem run_chars (h : ∀ c ∈ cs, c ≠ ']' ∧ c ≠ '\\') (read : List Char) (top : Frame)
    (outer : List Frame) :
    run ⟨.chars read false, top, outer⟩ cs = some ⟨.chars (read ++ cs) false, top, outer⟩ :=
  run_collect (f := (.chars · false)) (fun c hc read => by simp [State.step, h c hc]) read

theorem pushes_literal (h : ∀ c ∈ cs, c ≠ '"' ∧ c ≠ '\\') : Pushes ('"' :: cs ++ ['"']) [.literal cs] := by
  refine pushes_of_run fun top outer => ?_
  have hopen : State.step ⟨.plain, top, outer⟩ '"' = some ⟨.literal [] false, top, outer⟩ := rfl
  rw [cons_append, State.run_cons, hopen, bind_some, State.run_append, run_literal h, bind_some, State.run_cons]
  simp [State.step, unescape_plain fun c hc => (h c hc).2, State.push, State.run, Function.comp_def]

theorem pushes_chars (h : ∀ c ∈ cs, c ≠ ']' ∧ c ≠ '\\') (he : readChars cs = some e) :
    Pushes ('[' :: cs ++ [']']) [e] := by
  refine pushes_of_run fun top outer => ?_
  have hopen : State.step ⟨.plain, top, outer⟩ '[' = some ⟨.chars [] false, top, outer⟩ := rfl
  rw [cons_append, State.run_cons, hopen, bind_some, State.run_append, run_chars h, bind_some, State.run_cons]
  simp [State.step, he, State.push, State.run]

theorem readNat_toDigits (n : Nat) : readNat (Nat.toDigits 10 n) = some n := by
  have hdigits : (Nat.toDigits 10 n).all Char.isDigit = true :=
    List.all_eq_true.mpr fun c hc => Nat.isDigit_of_mem_toDigits (by decide) (by decide) hc
  unfold readNat
  rw [if_pos ⟨Nat.toDigits_ne_nil, hdigits⟩, Nat.ofDigitChars_toDigits (by decide) (by decide)]

/-- Digits are not one of the other characters between braces. -/
theorem ne_of_mem_toDigits {n : Nat} {d : Char} (hd : d.isDigit = false) (hc : c ∈ Nat.toDigits 10 n) : c ≠ d := by
  rintro rfl
  rw [Nat.isDigit_of_mem_toDigits (by decide) (by decide) hc] at hd
  cases hd

theorem readBounds_exactly (m : Nat) : readBounds (Nat.toDigits 10 m) = some (m, some m) := by
  have hfirst : (Nat.toDigits 10 m).takeWhile (· ≠ ',') = Nat.toDigits 10 m :=
    takeWhile_eq_self_iff.mpr fun c hc => by simpa using ne_of_mem_toDigits rfl hc
  unfold readBounds
  simp only [hfirst, readNat_toDigits, drop_length]
  rfl

theorem readBounds_comma (m : Nat) (rest : List Char) :
    readBounds (Nat.toDigits 10 m ++ ',' :: rest) =
      if rest = [] then some (m, none) else (readNat rest).map fun n => (m, some n) := by
  have hfirst : (Nat.toDigits 10 m ++ ',' :: rest).takeWhile (· ≠ ',') = Nat.toDigits 10 m := by
    rw [takeWhile_append_of_pos fun c hc => by simpa using ne_of_mem_toDigits rfl hc]
    simp
  unfold readBounds
  simp only [hfirst, readNat_toDigits, drop_left]
  cases rest with
  | nil => rfl
  | cons c rest => simp [map_eq_bind]

/-- Text up to the closing brace. -/
theorem run_braces (h : ∀ c ∈ cs, c ≠ '}') (read : List Char) (top : Frame) (outer : List Frame) :
    run ⟨.braces read, top, outer⟩ cs = some ⟨.braces (read ++ cs), top, outer⟩ :=
  run_collect (f := .braces) (fun c hc read => by simp [State.step, h c hc]) read

theorem Pushes.braces {t : List Char} {m : Nat} {n : Option Nat} (h : Pushes t [e])
    (hcs : ∀ c ∈ cs, c ≠ '}') (hbounds : readBounds cs = some (m, n)) :
    Pushes (t ++ ('{' :: cs ++ ['}'])) [.rep e m n] := by
  refine h.quantify (opens_cons _ rfl) (by simp) fun s hs => ?_
  obtain ⟨mode, top, outer⟩ := s
  obtain rfl : mode = .plain := hs
  have hopen : State.step ⟨.plain, top, outer⟩ '{' = some ⟨.braces [], top, outer⟩ := rfl
  rw [cons_append, State.run_cons, hopen, bind_some, State.run_append, run_braces hcs, bind_some, State.run_cons]
  simp [State.step, hbounds, State.quantify, State.run]

theorem Pushes.alternates {t : List Char} (h : Pushes t es) : Alternates t [] es := by
  intro s hs hitems c rest hc
  rw [h s hs c rest hc, State.pushAll_eq hs, hitems, append_nil]
  simp

theorem Alternates.or {a b : List Char} {bs fs : List Expr} (ha : Alternates a as es)
    (hb : Alternates b bs fs) : Alternates (a ++ '|' :: b) (as ++ seqOf es.reverse :: bs) fs := by
  intro s hs hitems c rest hc
  have hstep : ∀ top outer, State.step ⟨.plain, top, outer⟩ '|' =
      some ⟨.plain, { alts := top.alts ++ [seqOf top.items] }, outer⟩ := fun _ _ => rfl
  rw [append_assoc, cons_append, ha s hs hitems '|' _ rfl, State.run_cons, hstep, bind_some, hb _ rfl rfl c rest hc]
  simp

theorem Alternates.blank_left {t : List Char} (h : Alternates t as es) : Alternates (' ' :: t) as es := by
  intro s hs hitems c rest hc
  have hstep : s.step ' ' = some s := State.step_plain hs _
  rw [cons_append, State.run_cons, hstep]
  exact h s hs hitems c rest hc

theorem Alternates.blank_right {t : List Char} (h : Alternates t as es) : Alternates (t ++ [' ']) as es := by
  intro s hs hitems c rest hc
  have hstep : ∀ top outer, State.step ⟨.plain, top, outer⟩ ' ' = some ⟨.plain, top, outer⟩ :=
    fun _ _ => rfl
  rw [append_assoc, singleton_append, h s hs hitems ' ' _ rfl, State.run_cons, hstep]
  rfl

theorem Alternates.group {t : List Char} (h : Alternates t as es) :
    Pushes ('(' :: t ++ [')']) [Frame.close ⟨as, es.reverse⟩] := by
  refine pushes_of_run fun top outer => ?_
  have hopen : State.step ⟨.plain, top, outer⟩ '(' = some ⟨.plain, {}, top :: outer⟩ := rfl
  rw [cons_append, State.run_cons, hopen, bind_some, h _ rfl rfl ')' [] rfl]
  rfl

theorem Alternates.read {t : List Char} {as es : List Expr} (h : Alternates t as es) :
    read t = some (Frame.close ⟨as, es.reverse⟩) := by
  have hrun : State.run {} (t ++ [' ']) = some ⟨.plain, ⟨as, es.reverse⟩, []⟩ := h {} rfl rfl ' ' [] rfl
  unfold RuleText.read
  rw [hrun]

/-- Texts with bars between them. -/
def bars (texts : List (List Char)) : List Char := (texts.intersperse " | ".toList).flatten

theorem bars_cons_cons (a b : List Char) (texts : List (List Char)) :
    bars (a :: b :: texts) = (a ++ [' ']) ++ '|' :: (' ' :: bars (b :: texts)) := by
  unfold bars
  simp

/-! ## What texts mean -/

section Texts

variable {α : Type u} (letter : Char → α) (env : List Char → Language α)

/-- The text is a rule for `L`. -/
def Denotes (t : List Char) (L : Language α) : Prop := ∃ e, read t = some e ∧ e.lang letter env = L

/-- The language of some items in a row. -/
def langSeq (es : List Expr) : Language α := (es.map (Expr.lang letter env)).prod

def SeqText (t : List Char) (L : Language α) : Prop := ∃ es, Pushes t es ∧ langSeq letter env es = L

/-- `t` is one item and means `L`. -/
def ItemText (t : List Char) (L : Language α) : Prop := ∃ e, Pushes t [e] ∧ e.lang letter env = L

def AltsText (t : List Char) (L : Language α) : Prop :=
  ∃ as es, Alternates t as es ∧ (as.map (Expr.lang letter env)).sum + langSeq letter env es = L

variable {letter env} {t a b : List Char} {L M : Language α}

theorem mem_sum {Ls : List (Language α)} {w : List α} : w ∈ Ls.sum ↔ ∃ L ∈ Ls, w ∈ L := by
  induction Ls with
  | nil => simp
  | cons L Ls ih => rw [sum_cons, Language.mem_add, ih, exists_mem_cons_iff]

/-- A text is a rule for one language at most. -/
theorem Denotes.unique (hL : Denotes letter env t L) (hM : Denotes letter env t M) : L = M := by
  obtain ⟨e, he, rfl⟩ := hL
  obtain ⟨f, hf, rfl⟩ := hM
  rw [some.inj (he.symm.trans hf)]

theorem langSeq_append (es fs : List Expr) :
    langSeq letter env (es ++ fs) = langSeq letter env es * langSeq letter env fs := by
  unfold langSeq
  rw [map_append, prod_append]

theorem lang_seqOf (es : List Expr) : (seqOf es.reverse).lang letter env = langSeq letter env es := by
  unfold seqOf
  rw [foldl_reverse]
  induction es with
  | nil => rfl
  | cons e es ih =>
    rw [foldr_cons, Expr.lang, ih]
    simp [langSeq]

theorem lang_close (as es : List Expr) :
    (Frame.close ⟨as, es.reverse⟩).lang letter env = (as.map (Expr.lang letter env)).sum + langSeq letter env es := by
  unfold Frame.close
  induction as with
  | nil => simp [lang_seqOf]
  | cons a as ih => rw [foldr_cons, Expr.lang, ih, map_cons, sum_cons, add_assoc]

theorem AltsText.denotes (h : AltsText letter env t L) : Denotes letter env t L := by
  obtain ⟨as, es, halts, rfl⟩ := h
  exact ⟨_, halts.read, lang_close as es⟩

theorem AltsText.group (h : AltsText letter env t L) : ItemText letter env ('(' :: t ++ [')']) L := by
  obtain ⟨as, es, halts, rfl⟩ := h
  exact ⟨_, halts.group, lang_close as es⟩

theorem AltsText.or (ha : AltsText letter env a L) (hb : AltsText letter env b M) :
    AltsText letter env (a ++ '|' :: b) (L + M) := by
  obtain ⟨as, es, halts, rfl⟩ := ha
  obtain ⟨bs, fs, halts', rfl⟩ := hb
  refine ⟨_, fs, halts.or halts', ?_⟩
  simp only [map_append, sum_append, map_cons, sum_cons, lang_seqOf, add_assoc]

theorem AltsText.blank_left (h : AltsText letter env t L) : AltsText letter env (' ' :: t) L := by
  obtain ⟨as, es, halts, hlang⟩ := h
  exact ⟨as, es, halts.blank_left, hlang⟩

theorem AltsText.blank_right (h : AltsText letter env t L) : AltsText letter env (t ++ [' ']) L := by
  obtain ⟨as, es, halts, hlang⟩ := h
  exact ⟨as, es, halts.blank_right, hlang⟩

theorem SeqText.alts (h : SeqText letter env t L) : AltsText letter env t L := by
  obtain ⟨es, hpushes, hlang⟩ := h
  exact ⟨[], es, hpushes.alternates, by simpa using hlang⟩

theorem altsText_bars {texts : List (List Char)} {Ls : List (Language α)}
    (h : List.Forall₂ (SeqText letter env) texts Ls) (hne : texts ≠ []) :
    AltsText letter env (bars texts) Ls.sum := by
  induction h with
  | nil => exact absurd rfl hne
  | @cons a L texts Ls ha h ih =>
    cases h with
    | nil =>
      have hone : bars [a] = a := by simp [bars]
      rw [hone, sum_singleton]
      exact ha.alts
    | @cons b M texts Ls hb h =>
      rw [bars_cons_cons, sum_cons]
      exact ha.alts.blank_right.or (ih (by simp)).blank_left

theorem SeqText.append (ha : SeqText letter env a L) (hb : SeqText letter env b M) (hopens : Opens b) :
    SeqText letter env (a ++ b) (L * M) := by
  obtain ⟨es, hes, rfl⟩ := ha
  obtain ⟨fs, hfs, rfl⟩ := hb
  exact ⟨es ++ fs, hes.append hfs hopens, langSeq_append es fs⟩

variable (letter env) in
theorem seqText_nil : SeqText letter env [] 1 := ⟨[], pushes_nil, rfl⟩

variable (letter env) in
theorem seqText_blank : SeqText letter env [' '] 1 := ⟨[], pushes_blank, rfl⟩

theorem SeqText.blank_left (h : SeqText letter env t L) (hopens : Opens t) : SeqText letter env (' ' :: t) L := by
  have happend := (seqText_blank letter env).append h hopens
  rwa [one_mul] at happend

/-- Two sequences with a blank between them. -/
theorem SeqText.then (ha : SeqText letter env a L) (hb : SeqText letter env b M) :
    SeqText letter env (a ++ ' ' :: b) (L * M) := by
  obtain ⟨es, hes, rfl⟩ := ha
  obtain ⟨fs, hfs, rfl⟩ := hb
  refine ⟨es ++ fs, ?_, langSeq_append es fs⟩
  intro s hs c rest hc
  have hstep : (s.pushAll es).step ' ' = some (s.pushAll es) :=
    State.step_plain (State.pushAll_mode hs es) _
  rw [append_assoc, cons_append, hes s hs ' ' _ rfl, State.run_cons, hstep, bind_some,
    hfs _ (State.pushAll_mode hs es) c rest hc, State.pushAll_append]

theorem ItemText.seq (h : ItemText letter env t L) : SeqText letter env t L := by
  obtain ⟨e, hpushes, rfl⟩ := h
  exact ⟨[e], hpushes, by simp [langSeq]⟩

theorem ItemText.opt (h : ItemText letter env t L) : ItemText letter env (t ++ ['?']) (repeated L 0 (some 1)) := by
  obtain ⟨e, hpushes, rfl⟩ := h
  exact ⟨_, hpushes.quantify (opens_cons [] rfl) (by simp) fun s hs => by
    simp [State.run, State.step_plain hs, State.plain], rfl⟩

theorem ItemText.star (h : ItemText letter env t L) : ItemText letter env (t ++ ['*']) (repeated L 0 none) := by
  obtain ⟨e, hpushes, rfl⟩ := h
  exact ⟨_, hpushes.quantify (opens_cons [] rfl) (by simp) fun s hs => by
    simp [State.run, State.step_plain hs, State.plain], rfl⟩

theorem ItemText.plus (h : ItemText letter env t L) : ItemText letter env (t ++ ['+']) (repeated L 1 none) := by
  obtain ⟨e, hpushes, rfl⟩ := h
  exact ⟨_, hpushes.quantify (opens_cons [] rfl) (by simp) fun s hs => by
    simp [State.run, State.step_plain hs, State.plain], rfl⟩

theorem ItemText.exactly (h : ItemText letter env t L) (m : Nat) :
    ItemText letter env (t ++ ('{' :: Nat.toDigits 10 m ++ ['}'])) (repeated L m (some m)) := by
  obtain ⟨e, hpushes, rfl⟩ := h
  exact ⟨_, hpushes.braces (fun c hc => ne_of_mem_toDigits rfl hc) (readBounds_exactly m), rfl⟩

theorem ItemText.atLeast (h : ItemText letter env t L) (m : Nat) :
    ItemText letter env (t ++ ('{' :: (Nat.toDigits 10 m ++ [',']) ++ ['}'])) (repeated L m none) := by
  obtain ⟨e, hpushes, rfl⟩ := h
  refine ⟨_, hpushes.braces (fun c hc => ?_) (readBounds_comma m []), rfl⟩
  rcases List.mem_append.mp hc with hc | hc
  · exact ne_of_mem_toDigits rfl hc
  · rw [mem_singleton.mp hc]
    decide

theorem ItemText.between (h : ItemText letter env t L) (m n : Nat) :
    ItemText letter env (t ++ ('{' :: (Nat.toDigits 10 m ++ ',' :: Nat.toDigits 10 n) ++ ['}']))
      (repeated L m (some n)) := by
  obtain ⟨e, hpushes, rfl⟩ := h
  refine ⟨_, hpushes.braces (fun c hc => ?_) ((readBounds_comma m (Nat.toDigits 10 n)).trans ?_), rfl⟩
  · rcases List.mem_append.mp hc with hc | hc
    · exact ne_of_mem_toDigits rfl hc
    · cases hc with
      | head => decide
      | tail _ hc => exact ne_of_mem_toDigits rfl hc
  · rw [if_neg Nat.toDigits_ne_nil, readNat_toDigits]
    rfl

theorem itemText_literal (cs : List Char) (h : ∀ c ∈ cs, c ≠ '"' ∧ c ≠ '\\') :
    ItemText letter env ('"' :: cs ++ ['"']) {cs.map letter} := ⟨_, pushes_literal h, rfl⟩

/-- A range of single characters. -/
theorem itemText_oneOf (cs : List Char) (h : ∀ c ∈ cs, c ≠ ']' ∧ c ≠ '\\' ∧ c ≠ '-')
    (hfirst : cs.head? ≠ some '^') :
    ItemText letter env ('[' :: cs ++ [']']) (letters letter (· ∈ cs)) := by
  have hread : readChars cs = some (.chars false (cs.map fun c => (c, c))) := by
    rw [readChars]
    · rw [unescape_plain fun c hc => (h c hc).2.1, Option.map_some, toRanges_plain fun c hc => (h c hc).2.2]
    · rintro rest rfl
      exact hfirst rfl
  refine ⟨_, pushes_chars (fun c hc => ⟨(h c hc).1, (h c hc).2.1⟩) hread, ?_⟩
  simp only [Expr.lang, ne_eq, Bool.not_eq_false, inRanges_plain]

theorem itemText_noneOf (cs : List Char) (h : ∀ c ∈ cs, c ≠ ']' ∧ c ≠ '\\' ∧ c ≠ '-') :
    ItemText letter env ('[' :: ('^' :: cs) ++ [']']) (letters letter (· ∉ cs)) := by
  have hread : readChars ('^' :: cs) = some (.chars true (cs.map fun c => (c, c))) := by
    rw [readChars, unescape_plain fun c hc => (h c hc).2.1, Option.map_some, toRanges_plain fun c hc => (h c hc).2.2]
  refine ⟨_, pushes_chars (fun c hc => ?_) hread, ?_⟩
  · cases hc with
    | head => decide
    | tail _ hc => exact ⟨(h c hc).1, (h c hc).2.1⟩
  · simp only [Expr.lang, ne_eq, inRanges_plain]

theorem itemText_name {n : List Char} (hne : n ≠ []) (hword : ∀ c ∈ n, isWordChar c = true) :
    ItemText letter env n (env n) := ⟨_, pushes_name hne hword, rfl⟩

end Texts

end RuleText
