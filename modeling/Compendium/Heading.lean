/-
# `Compendium.Heading` — heading lines, read, printed and restyled

A heading line is one or more `#`, at least one gap, and a body; the number of
`#` is the heading's level.  The body may end in a group in braces, which is
the heading's anchor.  What is left of the body, trimmed, is the heading's
text, which is never empty and never runs over a break.

When a document is assembled its headings are written anew: those of an
included document may move one level down, and each heading without an anchor
may be given one, made from its slug.  Every other line stays as it is.
-/
import Compendium.Text.Basic

namespace Compendium

/-- A heading: its level, its text, and the inside of the braces that follow it, if any. -/
structure Heading where
  level : Nat
  text : Text
  anchor : Option Text
deriving DecidableEq

namespace Heading

/-- Neither of the two braces. -/
def isInner (c : Char) : Bool := c != '\x7b' && c != '\x7d'

/-- A body apart from its anchor: where it ends in a group in braces without a brace inside, what
comes before the group and what is in it. -/
def splitAnchor (body : Text) : Text × Option Text :=
  match body.reverse with
  | '\x7d' :: back =>
    match back.dropWhile isInner with
    | '\x7b' :: front => (front.reverse, some (back.takeWhile isInner).reverse)
    | _ => (body, none)
  | _ => (body, none)

/-- What follows the marks of a heading line, without the gaps around it.  There is none unless a
gap comes first. -/
def body? (rest : Text) : Option Text :=
  match rest with
  | c :: _ => if isGap c then some (Text.dropEndWhile isGap (rest.dropWhile isGap)) else none
  | [] => none

/-- Reads one line as a heading. -/
def ofLine? (line : Text) : Option Heading :=
  let marks := line.takeWhile (· == '#')
  if marks.isEmpty then none
  else
    match body? (line.dropWhile (· == '#')) with
    | none => none
    | some body =>
      let (front, anchor) := splitAnchor body
      let text := Text.trim front
      if text.isEmpty || (Text.dropEndWhile isGap front).contains '\n' then none
      else some ⟨marks.length, text, anchor⟩

/-- An anchor in its braces, after a space. -/
def anchorText : Option Text → Text
  | none => []
  | some a => ' ' :: '\x7b' :: a ++ ['\x7d']

def line (h : Heading) : Text :=
  List.replicate h.level '#' ++ ' ' :: h.text ++ anchorText h.anchor

end Heading

/-! ## Headings restyled -/

def locatedHeadings (t : Text) : List (Span × Heading) :=
  (located t).filterMap fun (span, l) => (Heading.ofLine? l.body).map (span, ·)

def headings (t : Text) : List Heading :=
  (lines t).filterMap fun l => Heading.ofLine? l.body

/-- The anchor that a heading text gives: its slug after a `#`, unless the slug is empty. -/
def slugAnchor? (text : Text) : Option Text :=
  match Text.slug text with
  | [] => none
  | s => some ('#' :: s)

/-- How the headings of a document are written: `deeper` moves each one level down, `anchored`
gives an anchor to each that has none. -/
structure HeadingStyle where
  deeper : Bool
  anchored : Bool
deriving DecidableEq

namespace HeadingStyle

def apply (style : HeadingStyle) (h : Heading) : Heading where
  level := if style.deeper then h.level + 1 else h.level
  text := h.text
  anchor := if style.anchored then h.anchor.or (slugAnchor? h.text) else h.anchor

/-- A line in this style, the same line unless it is a heading. -/
def restyleLine (style : HeadingStyle) (line : Text) : Text :=
  match Heading.ofLine? line with
  | some h => (style.apply h).line
  | none => line

/-- A text with each heading line in this style and every line ending kept, trimmed. -/
def restyle (style : HeadingStyle) (t : Text) : Text :=
  Text.trim ((lines t).flatMap fun l => style.restyleLine l.body ++ l.ending.text)

end HeadingStyle

end Compendium
