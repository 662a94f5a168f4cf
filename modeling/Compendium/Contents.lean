/-
# `Compendium.Contents` — the list of contents of a text, and where it is put

The list has one line for each heading of the text but the first, which is
its title.  A line is indented by how far the heading lies below the level at
which the list begins: the top level where the text has several headings
there, and the level below it otherwise.  A heading with an anchor is listed
as a link to it, any other as plain text.

A marker says where the list may go.  It is the word `[[_TOC_]]` on a line of
its own, or a fenced block with nothing but blanks in it whose opening line
says `toc`.  Gaps may stand around it, and it is found together with the breaks
before and after it.  In a text without a marker the list goes below the first
heading.  Either way blank lines set it apart; an empty list only removes the
marker.
-/
import Compendium.Heading

namespace Compendium

/-- One line of a list of contents. -/
structure Entry where
  depth : Nat
  text : Text
  anchor : Option Text
deriving DecidableEq

namespace Entry

/-- How many spaces a line is indented by for each level. -/
def indentWidth : Nat := 4

/-- The name of an entry, as a link where there is something to link to. -/
def name (e : Entry) : Text :=
  match e.anchor with
  | some a => '[' :: e.text ++ [']', '('] ++ a ++ [')']
  | none => e.text

def line (e : Entry) : Text :=
  List.replicate (e.depth * indentWidth) ' ' ++ ['-', ' '] ++ e.name

end Entry

/-- The level that the entries are indented from. -/
def baseLevel (hs : List Heading) : Nat := if 1 < hs.countP (·.level == 1) then 1 else 2

def entries (hs : List Heading) : List Entry :=
  hs.tail.map fun h => ⟨h.level - baseLevel hs, h.text, h.anchor⟩

/-- The list of contents of a text. -/
def Contents.ofText (t : Text) : Text :=
  Text.trimEnd ((entries (headings t)).flatMap fun e => e.line ++ ['\n'])

/-! ## Markers -/

namespace Text

theorem length_dropWhile_le {α : Type} (p : α → Bool) (l : List α) :
    (l.dropWhile p).length ≤ l.length := (List.dropWhile_sublist p).length_le

theorem length_after?_le {lead t r : Text} (h : after? lead t = some r) :
    r.length + lead.length ≤ t.length := by
  simp only [after?] at h
  split at h
  · next hp =>
    have := (List.isPrefixOf_iff_prefix.mp hp).length_le
    simp only [Option.some.injEq] at h
    subst h
    simp only [List.length_drop]
    omega
  · cases h

end Text

namespace Marker

/-- The marker that is one word. -/
def word : Text := "[[_TOC_]]".toList

/-- The first line of a marker that is a fenced block. -/
def fenceStart : Text := "```toc".toList

/-- The end of a fenced block. -/
def fenceEnd : Text := "```".toList

/-- What follows a marker that the text begins with. -/
def afterMark? (t : Text) : Option Text :=
  match Text.after? word t with
  | some r => some r
  | none =>
    match Text.after? fenceStart t with
    | some inside => Text.after? fenceEnd (inside.dropWhile isBlank)
    | none => none

/-- What follows a marker line that the text begins with, from the end of the line on. -/
def afterLine? (t : Text) : Option Text :=
  match afterMark? (t.dropWhile isGap) with
  | none => none
  | some r =>
    match r.dropWhile isGap with
    | [] => some []
    | c :: rest => if isBreak c then some (c :: rest) else none

/-- What comes before the first marker line and what comes after it and its breaks, in a text that
begins at the start of a line or not. -/
def find (lineStart : Bool) : Text → Option (Text × Text)
  | [] => none
  | c :: t =>
    match if lineStart then afterLine? (c :: t) else none with
    | some rest => some ([], rest.dropWhile isBreak)
    | none => (find (isBreak c) t).map fun (before, after) => (c :: before, after)

/-- What comes before and after the first marker of a text. -/
def first? (t : Text) : Option (Text × Text) :=
  (find true t).map fun (before, after) => (Text.dropBreaks before, after)

def isIn (t : Text) : Bool := (first? t).isSome

theorem length_afterMark?_lt {t r : Text} (h : afterMark? t = some r) : r.length < t.length := by
  simp only [afterMark?] at h
  have hw : 0 < word.length := by decide
  have hs : 0 < fenceStart.length := by decide
  split at h
  · next r' hr =>
    have h₁ := Text.length_after?_le hr
    simp only [Option.some.injEq] at h
    subst h
    omega
  · split at h
    · next inside hi =>
      have h₁ := Text.length_after?_le hi
      have h₂ := Text.length_after?_le h
      have h₃ := Text.length_dropWhile_le isBlank inside
      omega
    · cases h

theorem length_afterLine?_lt {t r : Text} (h : afterLine? t = some r) : r.length < t.length := by
  simp only [afterLine?] at h
  split at h
  · cases h
  · next r' hr =>
    have h₁ := length_afterMark?_lt hr
    have h₂ := Text.length_dropWhile_le isGap t
    have h₃ := Text.length_dropWhile_le isGap r'
    split at h
    · cases h
      simp only [List.length_nil]
      omega
    · next c rest hc =>
      split at h
      · cases h
        rw [hc] at h₃
        omega
      · cases h

theorem length_find_lt {lineStart : Bool} {t before after : Text}
    (h : find lineStart t = some (before, after)) : after.length < t.length := by
  induction t generalizing lineStart before after with
  | nil => simp [find] at h
  | cons c t ih =>
    simp only [find] at h
    split at h
    · next rest hr =>
      simp only [Option.some.injEq, Prod.mk.injEq] at h
      obtain ⟨_, rfl⟩ := h
      split at hr
      · exact Nat.lt_of_le_of_lt (Text.length_dropWhile_le isBreak rest) (length_afterLine?_lt hr)
      · cases hr
    · simp only [Option.map_eq_some_iff, Prod.exists, Prod.mk.injEq] at h
      obtain ⟨_, _, h, _, rfl⟩ := h
      exact Nat.lt_succ_of_lt (ih h)

theorem length_first?_lt {t before after : Text} (h : first? t = some (before, after)) :
    after.length < t.length := by
  simp only [first?, Option.map_eq_some_iff, Prod.exists, Prod.mk.injEq] at h
  obtain ⟨_, _, h, _, rfl⟩ := h
  exact length_find_lt h

/-- The text with a blank line in the place of each marker. -/
def blankOut (t : Text) : Text :=
  match _h : first? t with
  | none => t
  | some (before, after) => before ++ ['\n', '\n'] ++ blankOut after
termination_by t.length
decreasing_by exact length_first?_lt _h

/-- The text without its markers, trimmed. -/
def clear (t : Text) : Text := Text.trim (blankOut t)

end Marker

/-! ## The list in a text -/

namespace Contents

/-- The lines up to the first heading, with the heading but not its ending, and all that follows. -/
def splitBelowTitle? : List Line → Option (Text × Text)
  | [] => none
  | l :: ls =>
    match Heading.ofLine? l.body with
    | some _ => some (l.body, l.ending.text ++ ls.flatMap Line.text)
    | none => (splitBelowTitle? ls).map fun (above, below) => (l.text ++ above, below)

/-- A line feed or a carriage return. -/
def isLineEnd (c : Char) : Bool := c == '\r' || c == '\n'

/-- A list of contents between blank lines. -/
def block (list : Text) : Text :=
  if list.isEmpty then ['\n', '\n'] else ['\n', '\n'] ++ list ++ ['\n', '\n']

/-- The text with a list of contents in it. -/
def place (list : Text) (t : Text) : Text :=
  match Marker.first? t with
  | some (before, after) => before ++ block list ++ after
  | none =>
    if list.isEmpty then t
    else
      match splitBelowTitle? (lines t) with
      | some (above, below) => above ++ block list ++ below.dropWhile isLineEnd
      | none => t

end Contents

end Compendium
