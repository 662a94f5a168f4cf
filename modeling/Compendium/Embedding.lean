/-
# `Compendium.Embedding` — documents put in the place of include directives

While a document's includes are put in place, the document is *open*.  The
open documents form a chain, each included from the one before it.  A
document is opened at most once in a chain, so it can be included again beside
itself but never inside itself.  `Walk` is work that reads and changes a
chain, and a state of its own beside it, and that may fail; chain and state
outlive a failure.

An include directive is a whole line: a label in brackets after a colon, a
target in parentheses right behind it, and gaps up to the end.  The label has
no closing bracket, the target neither a closing parenthesis nor a blank, and
neither is empty.  `sections` takes a text apart at its directives: what stands
before the first one, and then each directive with what follows it up to the
next.

A draft grows from these sections.  At each directive the breaks at the end of
the draft are cut off.  Content put in place comes after one blank line, and so
does the text that follows it.  Where a directive is dropped, a run of blank
lines around it shrinks to one, and a plain line break stays a line break.
-/
import Compendium.Path.Basic

namespace Compendium

/-- The open documents, the innermost first. -/
structure Chain where
  links : List Path
deriving DecidableEq

namespace Chain

def empty : Chain := ⟨[]⟩

/-- The open documents, the outermost first. -/
def toList (c : Chain) : List Path := c.links.reverse

/-- Whether a document is open, however its path is written. -/
def contains (c : Chain) (p : Path) : Bool := c.links.any (·.same p)

def isEmpty (c : Chain) : Bool := c.links.isEmpty

def depth (c : Chain) : Nat := c.links.length

/-- Opens a document that is not open yet. -/
def push? (c : Chain) (p : Path) : Option Chain :=
  if c.contains p then none else some ⟨p :: c.links⟩

def top? (c : Chain) : Option Path := c.links.head?

/-- Closes the innermost open document. -/
def pop (c : Chain) : Chain := ⟨c.links.tail⟩

end Chain

/-- Work on a chain and a state `σ` that gives an `α` or fails with an `ε`. -/
def Walk (ε σ α : Type) : Type := Chain → σ → Except ε α × Chain × σ

namespace Walk

variable {ε σ α β : Type}

def pure (a : α) : Walk ε σ α := fun c s => (.ok a, c, s)

def fail (e : ε) : Walk ε σ α := fun c s => (.error e, c, s)

/-- One piece of work after another; the second is left out where the first fails. -/
def bind (w : Walk ε σ α) (f : α → Walk ε σ β) : Walk ε σ β := fun c s =>
  match w c s with
  | (.ok a, c', s') => f a c' s'
  | (.error e, c', s') => (.error e, c', s')

instance : Monad (Walk ε σ) where
  pure := pure
  bind := bind

def chain : Walk ε σ Chain := fun c s => (.ok c, c, s)

def update (f : σ → σ) : Walk ε σ Unit := fun c s => (.ok (), c, f s)

def record (a : α) : Walk ε (List α) Unit := update (· ++ [a])

/-- Does the work with `p` open, and closes it afterwards, whether the work fails or not.  Where
`p` is open already, it is neither opened nor closed. -/
def within (p : Path) (w : Walk ε σ α) : Walk ε σ α := fun c s =>
  match c.push? p with
  | some c' =>
    let (r, c'', s') := w c' s
    (r, c''.pop, s')
  | none => w c s

end Walk

/-! ## Directives -/

/-- An include directive: what it is called and what it names. -/
structure Directive where
  label : Text
  target : Text
deriving DecidableEq

namespace Directive

def isLabelChar (c : Char) : Bool := c != ']'

def isTargetChar (c : Char) : Bool := c != ')' && !isBlank c

def line (d : Directive) : Text :=
  [':', '['] ++ d.label ++ [']', '('] ++ d.target ++ [')']

/-- Reads one line as an include directive. -/
def ofLine? (line : Text) : Option Directive :=
  match line with
  | ':' :: '[' :: t =>
    match t.dropWhile isLabelChar with
    | ']' :: '(' :: u =>
      match u.dropWhile isTargetChar with
      | ')' :: gaps =>
        let d : Directive := ⟨t.takeWhile isLabelChar, u.takeWhile isTargetChar⟩
        if d.label.isEmpty || d.target.isEmpty || !gaps.all isGap then none else some d
      | _ => none
    | _ => none
  | _ => none

end Directive

/-- The directives of a text, in order, each with its line and the bytes that the line covers. -/
def locatedDirectives (t : Text) : List (Span × Line × Directive) :=
  (located t).filterMap fun (span, l) => (Directive.ofLine? l.body).map (span, l, ·)

def directives (t : Text) : List Directive :=
  (lines t).filterMap fun l => Directive.ofLine? l.body

/-- A text taken apart at its directives. -/
structure Sections where
  lead : Text
  rest : List (Directive × Text)
deriving DecidableEq

namespace Sections

/-- The sections of a text that one more line comes before. -/
def push (l : Line) (s : Sections) : Sections :=
  match Directive.ofLine? l.body with
  | some d => ⟨[], (d, l.ending.text ++ s.lead) :: s.rest⟩
  | none => ⟨l.text ++ s.lead, s.rest⟩

end Sections

def sections (t : Text) : Sections := (lines t).foldr Sections.push ⟨[], []⟩

/-! ## Drafts -/

/-- How the next section joins a draft. -/
inductive Joint where
  /-- As it stands. -/
  | plain
  /-- After one blank line. -/
  | apart
  /-- After one blank line if it begins with more than one break, else on the next line. -/
  | close
deriving DecidableEq

/-- What has been written so far, and how the next section joins it. -/
structure Draft where
  text : Text
  joint : Joint
deriving DecidableEq

namespace Draft

def empty : Draft := ⟨[], .plain⟩

/-- Adds a section.  After a directive, a section of breaks alone adds nothing. -/
def add (d : Draft) (section_ : Text) : Draft :=
  match d.joint with
  | .plain => { d with text := d.text ++ section_ }
  | joint =>
    let rest := section_.dropWhile isBreak
    if rest.isEmpty then d
    else
      let gap : Text :=
        if joint = .apart ∨ rest.length + 1 < section_.length then ['\n', '\n'] else ['\n']
      ⟨d.text ++ gap ++ rest, .plain⟩

def cut (d : Draft) : Draft := { d with text := Text.dropBreaks d.text }

/-- Puts content in the place of a directive, or drops the directive where there is none. -/
def place (d : Draft) : Option Text → Draft
  | some content =>
    let body := Text.trim content
    ⟨if body.isEmpty then d.text else d.text ++ ['\n', '\n'] ++ body, .apart⟩
  | none =>
    if d.joint = .plain ∧ d.text ≠ [] then { d with joint := .close } else d

/-- Goes on with a draft through directives and the sections behind them. -/
def extend {m : Type → Type} [Monad m] (expand : Directive → m (Option Text)) :
    Draft → List (Directive × Text) → m Draft
  | draft, [] => pure draft
  | draft, (d, following) :: rest => do
    let content ← expand d
    extend expand ((draft.cut.place content).add following) rest

end Draft

/-- The text of the document `current` with each directive replaced by what `expand` makes of it.
The document is open while `expand` runs, unless it has no directive. -/
def embed {ε σ : Type} (expand : Directive → Walk ε σ (Option Text)) (current : Path)
    (t : Text) : Walk ε σ Text :=
  match sections t with
  | ⟨lead, []⟩ => pure (Text.trim lead)
  | ⟨lead, rest⟩ =>
    .within current do
      let draft ← Draft.extend expand (Draft.empty.add lead) rest
      pure (Text.trim draft.text)

end Compendium
