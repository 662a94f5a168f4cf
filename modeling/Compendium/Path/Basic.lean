/-
# `Compendium.Path.Basic` — paths, the steps they take, and their parts

A path is kept as it was written and is printed that way.  What it leads
through is its list of steps: an optional start at the root, then names and
moves to the parent folder.  Empty pieces and single dots lead nowhere and are
left out, except that a relative path may begin with one dot.  Two paths with
the same steps are the same path to a chain of open documents, however they
are written (`Path.same`).
-/
import Compendium.Text.Basic

namespace Compendium

/-- One step of a path. -/
inductive Step where
  | root
  | here
  | up
  | name (text : Text)
deriving DecidableEq

/-- A path as written, with `/` between its pieces. -/
structure Path where
  text : Text
deriving DecidableEq

namespace Step

/-- The step that a piece of a path stands for, if it leads anywhere. -/
def ofPiece? (piece : Text) : Option Step :=
  if piece = [] then none
  else if piece = ['.'] then none
  else if piece = ['.', '.'] then some up
  else some (name piece)

/-- A step as it is written between separators; the root has the empty text. -/
def text : Step → Text
  | root => []
  | here => ['.']
  | up => ['.', '.']
  | name t => t

def isName : Step → Bool
  | name _ => true
  | _ => false

end Step

namespace Path

def empty : Path := ⟨[]⟩

/-- Whether nothing is written. -/
def isEmpty (p : Path) : Bool := p.text.isEmpty

/-- Whether the path begins at the root. -/
def isAbsolute (p : Path) : Bool := p.text.head? == some '/'

def steps (p : Path) : List Step :=
  match p.text with
  | '/' :: t => .root :: (t.splitOn '/').filterMap Step.ofPiece?
  | t =>
    match t.splitOn '/' with
    | ['.'] :: rest => .here :: rest.filterMap Step.ofPiece?
    | pieces => pieces.filterMap Step.ofPiece?

def same (p q : Path) : Bool := p.steps == q.steps

/-- The path that takes the given steps, written without a needless character. -/
def ofSteps : List Step → Path
  | .root :: rest => ⟨'/' :: List.intercalate ['/'] (rest.map Step.text)⟩
  | steps => ⟨List.intercalate ['/'] (steps.map Step.text)⟩

/-- The second path seen from the first: an absolute path stands for itself. -/
def join (dir p : Path) : Path :=
  if p.isAbsolute then p
  else if dir.text.getLast?.all (· == '/') then ⟨dir.text ++ p.text⟩
  else ⟨dir.text ++ '/' :: p.text⟩

/-- The start of a written path that no step backwards removes, and the rest: a `/`, or a dot that
is the whole first piece, or nothing. -/
def split (p : Path) : Text × Text :=
  match p.text with
  | '/' :: t => (['/'], t)
  | ['.'] => (['.'], [])
  | '.' :: '/' :: t => (['.'], '/' :: t)
  | t => ([], t)

/-- A piece that leads nowhere. -/
def isIdle (piece : Text) : Bool := piece == [] || piece == ['.']

/-- The path without its last step, the rest as written.  The root and the empty path have none. -/
def parent? (p : Path) : Option Path :=
  let (start, rest) := p.split
  match Text.dropEndWhile isIdle (rest.splitOn '/') with
  | [] => if start = ['.'] then some empty else none
  | pieces => some ⟨start ++ List.intercalate ['/'] (Text.dropEndWhile isIdle pieces.dropLast)⟩

def fileName? (p : Path) : Option Text :=
  match p.steps.getLast? with
  | some (.name t) => some t
  | _ => none

/-- What follows the last dot of the file name.  A dot in front of the whole name does not count. -/
def extension? (p : Path) : Option Text :=
  match p.fileName? with
  | none => none
  | some name =>
    match name.reverse.dropWhile (· != '.') with
    | _ :: _ :: _ => some (name.reverse.takeWhile (· != '.')).reverse
    | _ => none

end Path

/-! ## What is written for a path

A path in a directive, a settings file or on the command line may have blanks
around it and slashes at its end, and may begin with `$ROOT/`, in any case,
for the root folder.  The blanks go first, then the slashes, then the token is
replaced, each once. -/

namespace Path

/-- Stands for the root folder at the start of a written path. -/
def rootToken : Text := "$ROOT/".toList

def dropSlashes (t : Text) : Text := Text.dropEndWhile (· == '/') t

/-- What follows the root token, in upper or lower case, where the text begins with it. -/
def afterRootToken? (t : Text) : Option Text :=
  if Text.lower (t.take rootToken.length) = Text.lower rootToken
    then some (t.drop rootToken.length) else none

/-- The path that a written text stands for, where `root` is the root folder. -/
def ofWritten (root : Path) (t : Text) : Path :=
  let bare := dropSlashes (Text.trim t)
  match afterRootToken? bare with
  | some rest => ⟨dropSlashes root.text ++ '/' :: rest⟩
  | none => ⟨bare⟩

end Path

end Compendium
