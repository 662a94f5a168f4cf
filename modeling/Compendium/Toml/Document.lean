/-
# `Compendium.Toml.Document` — TOML documents, read

A document is read line by line: a line is empty, or opens a table, or puts a
value under a key of the table opened last.  Arrays and inline tables may run
over several lines, with comments between their parts and around the `=` of a
member, and a comma may follow their last part.  Arrays and inline tables lie
at most `maxNesting` deep in each other, and a key has at most `maxKeyParts`
parts.
-/
import Compendium.Toml.Value

namespace Compendium.Toml

/-- How deep arrays and inline tables may lie in each other. -/
def maxNesting : Nat := 80

/-- How many parts a key may have. -/
def maxKeyParts : Nat := 80

def gaps : Reader Unit := do
  let _ ← Reader.run isGap

def comment : Reader Unit := do
  if ← Reader.accept ['#'] then
    let _ ← Reader.run isVisible

/-- Takes gaps, comments and line endings, from at most `most` lines. -/
def blanks : Nat → Reader Unit
  | 0 => return ()
  | most + 1 => do
    gaps
    comment
    if ← lineEnd then blanks most

/-- A character of a key that stands without quotes. -/
def isKeyChar (c : Char) : Bool := c.isAlphanum || c == '-' || c == '_'

def keyPart : Reader Text := do
  match ← oneLine? with
  | some t => return t
  | none =>
    match ← Reader.run isKeyChar with
    | [] => Reader.refuse
    | t => return t

/-- Takes the parts of a key, with points between them; more than `most` are refused. -/
def keyParts : Nat → Reader (List Text)
  | 0 => Reader.refuse
  | most + 1 => do
    gaps
    let part ← keyPart
    gaps
    if ← Reader.accept ['.'] then return part :: (← keyParts most)
    return [part]

def key : Reader (List Text) := keyParts maxKeyParts

def isWordChar (c : Char) : Bool := isKeyChar c || c == '+' || c == '.' || c == ':'

/-- The value that a word stands for. -/
def ofWord? (w : Text) : Option TomlValue :=
  if w = "true".toList then some (.bool true)
  else if w = "false".toList then some (.bool false)
  else if isInteger w || isFloat w then some (.number w)
  else if isMoment w then some (.moment w)
  else none

/-- Takes a word, with a time after a date and one space. -/
def word : Reader TomlValue := do
  let w ← Reader.run isWordChar
  let full ← if isDate w then timeBehind w else pure w
  match ofWord? full with
  | some v => return v
  | none => Reader.refuse
where
  /-- A date with the time that follows it. -/
  timeBehind (date : Text) : Reader Text := fun t =>
    match t with
    | ' ' :: c :: rest =>
      if c.isDigit then
        some (date ++ ' ' :: (c :: rest).takeWhile isWordChar, (c :: rest).dropWhile isWordChar)
      else some (date, t)
    | _ => some (date, t)

mutual

/-- Takes a value that lies in `deep` arrays and inline tables; `left` bounds how many parts are
read. -/
def value (deep : Nat) : Nat → Reader TomlValue
  | 0 => Reader.refuse
  | left + 1 => do
    match ← quoted? with
    | some t => return .string t
    | none =>
      if ← Reader.accept ['['] then
        if maxNesting ≤ deep then Reader.refuse
        return .array (← elements (deep + 1) left)
      if ← Reader.accept ['\x7b'] then
        if maxNesting ≤ deep then Reader.refuse
        return .table .inlined (← members (deep + 1) [] left)
      word

/-- Takes the elements of an array and the bracket that closes it. -/
def elements (deep : Nat) : Nat → Reader (List TomlValue)
  | 0 => Reader.refuse
  | left + 1 => do
    blanks (left + 1)
    if ← Reader.accept [']'] then return []
    let v ← value deep left
    blanks (left + 1)
    if ← Reader.accept [','] then return v :: (← elements deep left)
    Reader.expect [']']
    return [v]

/-- Takes the members of an inline table and the brace that closes it, where `sofar` has been
read. -/
def members (deep : Nat) (sofar : TomlTable) : Nat → Reader TomlTable
  | 0 => Reader.refuse
  | left + 1 => do
    blanks (left + 1)
    if ← Reader.accept ['\x7d'] then return sofar
    let ks ← key
    blanks (left + 1)
    Reader.expect ['=']
    blanks (left + 1)
    let v ← value deep left
    match sofar.add? ks.dropLast (ks.getLast?.getD []) v with
    | none => Reader.refuse
    | some t =>
      blanks (left + 1)
      if ← Reader.accept [','] then members deep t left
      else
        Reader.expect ['\x7d']
        return t

end

/-- A document read so far: its table, and the key of the table opened last. -/
structure Document where
  table : TomlTable
  current : List Text

namespace Document

def empty : Document := ⟨[], []⟩

/-- Puts a value under a key of the table opened last. -/
def put? (d : Document) (ks : List Text) (v : TomlValue) : Option Document :=
  (d.table.reach? (fun t => t.add? ks.dropLast (ks.getLast?.getD []) v) d.current).map
    fun t => { d with table := t }

/-- Opens the table with a key, or adds one to the array of tables with that key. -/
def turnTo? (d : Document) (isArray : Bool) (ks : List Text) : Option Document :=
  let last := ks.getLast?.getD []
  (d.table.reach? (if isArray then TomlTable.extend? last else TomlTable.open? last)
    ks.dropLast).map fun t => ⟨t, ks⟩

end Document

/-- Goes on where there is a value. -/
def given {α : Type} : Option α → Reader α
  | some a => return a
  | none => Reader.refuse

/-- Takes what a line says, gaps and comments left aside; `left` bounds how many parts are read. -/
def statement (left : Nat) (d : Document) : Reader Document := do
  gaps
  match ← Reader.look with
  | none => return d
  | some '#' => return d
  | some '\n' => return d
  | some '\r' => return d
  | some '[' =>
    let _ ← Reader.char
    let isArray ← Reader.accept ['[']
    let ks ← key
    Reader.expect (if isArray then [']', ']'] else [']'])
    given (d.turnTo? isArray ks)
  | some _ =>
    let ks ← key
    Reader.expect ['=']
    gaps
    given (d.put? ks (← value 0 left))

def statements : Nat → Document → Reader Document
  | 0, _ => Reader.refuse
  | left + 1, d => do
    let d ← statement (left + 1) d
    gaps
    comment
    if ← lineEnd then statements left d
    else return d

/-- Reads a TOML document, which may begin with a byte order mark. -/
def ofText? (t : Text) : Option TomlTable :=
  let body := (Text.after? ['\uFEFF'] t).getD t
  (Reader.whole (statements (2 * body.length + 2) .empty) body).map Document.table

end Compendium.Toml
