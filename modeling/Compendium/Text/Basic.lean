/-
# `Compendium.Text.Basic` — texts, their blanks and their lines

A text is a list of characters.  Three classes of character matter to every
part of a document:

* a *blank* is any character with the Unicode property White_Space, and is
  what trimming removes;
* a *gap* is a space or a tab, the only blanks that may separate the parts of
  one line;
* a *break* is a line feed.

A line ends with a line feed, alone or after one carriage return; the last
line of a text may also end with nothing or with a single carriage return.
`lines` keeps each ending beside its line, so that nothing is lost
(`flatMap_text_lines`), and `locate` says which bytes each line covers.

Documents come with any mix of line endings.  Before anything else is done to
one, `Text.uniform` makes its lines end in a line feed and its tabs spaces, in
three passes over the whole text.
-/

namespace Compendium

/-- A text, read as the list of its characters. -/
abbrev Text := List Char

/-- The characters with the Unicode property White_Space, 25 of them. -/
def isBlank (c : Char) : Bool :=
  let n := c.toNat
  (0x09 ≤ n && n ≤ 0x0D) || n == 0x20 || n == 0x85 || n == 0xA0 || n == 0x1680 ||
    (0x2000 ≤ n && n ≤ 0x200A) || n == 0x2028 || n == 0x2029 || n == 0x202F ||
    n == 0x205F || n == 0x3000

/-- A space or a tab. -/
def isGap (c : Char) : Bool := c == ' ' || c == '\t'

/-- A line feed. -/
def isBreak (c : Char) : Bool := c == '\n'

theorem isBlank_of_isGap {c : Char} (h : isGap c = true) : isBlank c = true := by
  simp only [isGap, Bool.or_eq_true, beq_iff_eq] at h
  rcases h with rfl | rfl <;> decide

theorem isBlank_of_isBreak {c : Char} (h : isBreak c = true) : isBlank c = true := by
  simp only [isBreak, beq_iff_eq] at h
  subst h; decide

namespace Text

/-- Leaves out the longest run at the end whose members all satisfy `p`. -/
def dropEndWhile {α : Type} (p : α → Bool) (l : List α) : List α :=
  (l.reverse.dropWhile p).reverse

def trimStart (t : Text) : Text := t.dropWhile isBlank

def trimEnd (t : Text) : Text := dropEndWhile isBlank t

def trim (t : Text) : Text := trimEnd (trimStart t)

def dropBreaks (t : Text) : Text := dropEndWhile isBreak t

/-- The number of bytes of the text in UTF-8. -/
def size (t : Text) : Nat := t.foldr (fun c n => c.utf8Size + n) 0

/-- What follows `lead` where the text begins with it. -/
def after? (lead : Text) (t : Text) : Option Text :=
  if lead.isPrefixOf t then some (t.drop lead.length) else none

/-- The ASCII letters in lower case, all other characters kept. -/
def lower (t : Text) : Text := t.map Char.toLower

@[simp] theorem size_nil : size [] = 0 := rfl

@[simp] theorem size_cons (c : Char) (t : Text) : size (c :: t) = c.utf8Size + size t := rfl

@[simp] theorem size_append (s t : Text) : size (s ++ t) = size s + size t := by
  induction s with
  | nil => simp
  | cons c s ih => simp [ih, Nat.add_assoc]

end Text

/-! ## Lines -/

/-- What ends a line.  A single carriage return ends only the last line of a text. -/
inductive Ending where
  | none
  | lf
  | crlf
  | cr
deriving DecidableEq

def Ending.text : Ending → Text
  | .none => []
  | .lf => ['\n']
  | .crlf => ['\r', '\n']
  | .cr => ['\r']

/-- A line and what ends it. -/
structure Line where
  body : Text
  ending : Ending
deriving DecidableEq

namespace Line

/-- The line as it stands in the text. -/
def text (l : Line) : Text := l.body ++ l.ending.text

/-- The line with one more character before it. -/
def push (c : Char) (l : Line) : Line := { l with body := c :: l.body }

@[simp] theorem text_push (c : Char) (l : Line) : (l.push c).text = c :: l.text := rfl

end Line

/-- The lines of a text, in order.  The empty text has none. -/
def lines : Text → List Line
  | [] => []
  | '\n' :: t => ⟨[], .lf⟩ :: lines t
  | ['\r'] => [⟨[], .cr⟩]
  | '\r' :: '\n' :: t => ⟨[], .crlf⟩ :: lines t
  | c :: t =>
    match lines t with
    | [] => [⟨[c], .none⟩]
    | l :: ls => l.push c :: ls

theorem flatMap_text_lines (t : Text) : (lines t).flatMap Line.text = t := by
  fun_induction lines t with
  | case1 => rfl
  | case2 t ih => simp [Line.text, Ending.text, ih]
  | case3 => rfl
  | case4 t ih => simp [Line.text, Ending.text, ih]
  | case5 c t _ _ _ h ih =>
    rw [h] at ih
    simp only [List.flatMap_nil] at ih
    simp [Line.text, Ending.text, ← ih]
  | case6 c t _ _ _ l ls h ih =>
    rw [h] at ih
    simpa using ih

/-- A stretch of bytes, from `start` up to but not including `stop`. -/
structure Span where
  start : Nat
  stop : Nat
deriving DecidableEq

/-- The lines with the bytes that they cover, endings left out, where the first line begins at
`offset`. -/
def locate (offset : Nat) : List Line → List (Span × Line)
  | [] => []
  | l :: ls =>
    (⟨offset, offset + Text.size l.body⟩, l) :: locate (offset + Text.size l.text) ls

def located (t : Text) : List (Span × Line) := locate 0 (lines t)

/-! ## Uniform texts -/

namespace Text

/-- How many spaces a tab becomes. -/
def tabWidth : Nat := 4

/-- Each carriage return that a line feed follows is left out. -/
def joinPairs : Text → Text
  | [] => []
  | '\r' :: '\n' :: t => '\n' :: joinPairs t
  | c :: t => c :: joinPairs t

/-- Each carriage return becomes a line feed. -/
def breakReturns (t : Text) : Text := t.map fun c => if c = '\r' then '\n' else c

def expandTabs (t : Text) : Text :=
  t.flatMap fun c => if c = '\t' then List.replicate tabWidth ' ' else [c]

/-- The text with line feeds as its only line endings, and without tabs. -/
def uniform (t : Text) : Text := expandTabs (breakReturns (joinPairs t))

/-! ## Slugs -/

/-- What a character becomes in a slug, if it has a place there. -/
def slugChar? (c : Char) : Option Char :=
  if c.isUpper then some c.toLower
  else if c.isLower || c.isDigit || c == '-' then some c
  else if c == ' ' then some '-'
  else if c == '\u212A' then some 'k'
  else if c == '\u0130' then some 'i'
  else none

/-- The slug of a text, which may be empty. -/
def slug (t : Text) : Text := t.filterMap slugChar?

end Text

end Compendium
