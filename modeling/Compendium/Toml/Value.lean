/-
# `Compendium.Toml.Value` — TOML tables, and the values in them

A TOML document is one table.  Its lines put values into it, one after the
other, and a line may open a table below.  A table keeps how it came about,
since that says what may still be added to it:

* a table that a header names is *open*, and is named by one header only;
* a table above one that a header names is *implied*, and may be named later
  or become dotted;
* a table that a dotted key leads through is *dotted*: further dotted keys may
  lead through it and headers may name tables below it, but none names it;
* an *inline* table is complete.

Arrays of tables grow by one table with each header that names them, and what
follows goes into the last one.

Numbers, strings and moments are each read from where they begin.
-/
import Compendium.Text.Reader

namespace Compendium

/-- How a table came about. -/
inductive TableOrigin where
  | opened
  | implied
  | dotted
  | inlined
deriving DecidableEq

/-- A TOML value.  Numbers and moments are kept as they are written. -/
inductive TomlValue where
  | string (t : Text)
  | bool (b : Bool)
  | number (literal : Text)
  | moment (literal : Text)
  | array (elements : List TomlValue)
  | table (origin : TableOrigin) (members : List (Text × TomlValue))
  | tables (newestFirst : List (List (Text × TomlValue)))

/-- The members of a table, in order. -/
abbrev TomlTable := List (Text × TomlValue)

namespace TomlTable

def get? (t : TomlTable) (k : Text) : Option TomlValue := (t.find? (·.1 = k)).map Prod.snd

/-- Puts a value under a key, in the place of the one there. -/
def put (t : TomlTable) (k : Text) (v : TomlValue) : TomlTable :=
  match t with
  | [] => [(k, v)]
  | (k', v') :: rest => if k' = k then (k, v) :: rest else (k', v') :: put rest k v

/-- A new table that a dotted key leads to, with a value under the last part of the key. -/
def nest : List Text → Text → TomlValue → TomlTable
  | [], k, v => [(k, v)]
  | part :: parts, k, v => [(part, .table .dotted (nest parts k v))]

/-- Puts a value under a dotted key, which makes each implied table on the way dotted.  The last
table of an array may be led through, but the key cannot end in it. -/
def add? (t : TomlTable) : List Text → Text → TomlValue → Option TomlTable
  | [], k, v => if (t.get? k).isNone then some (t.put k v) else none
  | part :: parts, k, v =>
    match t.get? part with
    | none => some (t.put part (.table .dotted (nest parts k v)))
    | some (.table .dotted below) =>
      (add? below parts k v).map fun b => t.put part (.table .dotted b)
    | some (.table .implied below) =>
      (add? below parts k v).map fun b => t.put part (.table .dotted b)
    | some (.tables (last :: earlier)) =>
      if parts.isEmpty then none
      else (add? last parts k v).map fun b => t.put part (.tables (b :: earlier))
    | _ => none

/-- Changes the table that a header leads to.  Tables on the way that do not exist yet come about
by implication. -/
def reach? (f : TomlTable → Option TomlTable) (t : TomlTable) : List Text → Option TomlTable
  | [] => f t
  | part :: parts =>
    match t.get? part with
    | none => (reach? f [] parts).map fun b => t.put part (.table .implied b)
    | some (.table .inlined _) => none
    | some (.table origin below) =>
      (reach? f below parts).map fun b => t.put part (.table origin b)
    | some (.tables (last :: earlier)) =>
      (reach? f last parts).map fun b => t.put part (.tables (b :: earlier))
    | some _ => none

def open? (k : Text) (t : TomlTable) : Option TomlTable :=
  match t.get? k with
  | none => some (t.put k (.table .opened []))
  | some (.table .implied below) => some (t.put k (.table .opened below))
  | some _ => none

def extend? (k : Text) (t : TomlTable) : Option TomlTable :=
  match t.get? k with
  | none => some (t.put k (.tables [[]]))
  | some (.tables earlier) => some (t.put k (.tables ([] :: earlier)))
  | some _ => none

end TomlTable

/-! ## Integers and floats

Digits may be set in groups by single underscores.  A decimal number has no
needless zero in front.  An integer has to fit into 128 bits, with or without
a sign, and a float must not be too large for double precision. -/

namespace Toml

/-- One or more digits, with single underscores between some of them. -/
def isGrouped (isDigit : Char → Bool) (t : Text) : Bool :=
  (t.splitOn '_').all fun g => !g.isEmpty && g.all isDigit

/-- The digits without the underscores. -/
def ungrouped (t : Text) : Text := t.filter (· != '_')

def isWhole (t : Text) : Bool := isGrouped Char.isDigit t && (t.head? != some '0' || t == ['0'])

def decimal (t : Text) : Nat :=
  (ungrouped t).foldl (fun n c => 10 * n + (c.toNat - '0'.toNat)) 0

def unsigned : Text → Text
  | '+' :: t => t
  | '-' :: t => t
  | t => t

def isBinary (c : Char) : Bool := c == '0' || c == '1'

def isOctal (c : Char) : Bool := '0' ≤ c && c ≤ '7'

def isHex (c : Char) : Bool := (hexValue? c).isSome

/-- Whether digits to a base are a number that fits into 128 bits. -/
def fits (base : Nat) (t : Text) : Bool :=
  (ungrouped t).foldl (fun n c => base * n + (hexValue? c).getD 0) 0 < Nat.pow 2 128

/-- Whether a text is an integer that can be kept. -/
def isInteger : Text → Bool
  | '0' :: 'x' :: t => isGrouped isHex t && fits 16 t
  | '0' :: 'o' :: t => isGrouped isOctal t && fits 8 t
  | '0' :: 'b' :: t => isGrouped isBinary t && fits 2 t
  | '-' :: t => isWhole t && decimal t ≤ Nat.pow 2 127
  | t => isWhole (unsigned t) && decimal (unsigned t) < Nat.pow 2 128

def isExponentMark (c : Char) : Bool := c == 'e' || c == 'E'

/-- The parts of a decimal number: the digits before the point, those behind it, and the exponent,
where the text has them. -/
structure DecimalParts where
  whole : Text
  fraction : Option Text
  exponent : Option Text

/-- The parts of a number without its sign. -/
def DecimalParts.ofText (t : Text) : DecimalParts :=
  let mantissa := t.takeWhile (!isExponentMark ·)
  ⟨mantissa.takeWhile (· != '.'), (mantissa.dropWhile (· != '.')).tail?,
    (t.dropWhile (!isExponentMark ·)).tail?⟩

/-- The least number that double precision rounds to infinity. -/
def tooLarge : Nat := Nat.pow 2 1024 - Nat.pow 2 970

/-- Whether `digits` times a power of ten stays below `tooLarge`. -/
def isFinite (digits : Nat) (power : Int) : Bool :=
  if digits = 0 then true
  else
    let places : Int := (Nat.toDigits 10 digits).length + power
    if 310 < places then false
    else if places < 308 then true
    else if 0 ≤ power then digits * Nat.pow 10 power.toNat < tooLarge
    else digits < tooLarge * Nat.pow 10 (-power).toNat

def exponentValue : Text → Int
  | '-' :: t => -(decimal t : Int)
  | t => decimal (unsigned t)

/-- Whether a text is a float that can be kept. -/
def isFloat (t : Text) : Bool :=
  let body := unsigned t
  if body = "inf".toList ∨ body = "nan".toList then true
  else
    let parts := DecimalParts.ofText body
    let fraction := parts.fraction.getD []
    let shaped := isWhole parts.whole && parts.fraction.all (isGrouped Char.isDigit) &&
      parts.exponent.all (fun e => isGrouped Char.isDigit (unsigned e)) &&
      (parts.fraction.isSome || parts.exponent.isSome)
    shaped && isFinite (decimal (parts.whole ++ fraction))
      (exponentValue (parts.exponent.getD ['0']) - (ungrouped fraction).length)

/-! ## Strings

A string stands in double or single quotes.  In double quotes a backslash
begins an escape; single quotes have none.  Three quotes in a row begin a
string that may run over several lines: a line ending right behind the opening
quotes does not count, up to two quotes may stand before the closing ones, and
in double quotes a backslash at the end of a line leaves out all blanks and
line endings up to the next other character. -/

/-- A character that may stand in a text without an escape: no control character but the tab. -/
def isVisible (c : Char) : Bool := c == '\t' || (0x20 ≤ c.toNat && c.toNat != 0x7F)

/-- The character that a backslash and one more character stand for. -/
def escaped? (c : Char) : Option Char :=
  if c = '"' ∨ c = '\\' then some c
  else if c = 'b' then some '\x08'
  else if c = 't' then some '\t'
  else if c = 'n' then some '\n'
  else if c = 'f' then some '\x0c'
  else if c = 'r' then some '\r'
  else if c = 'e' then some '\x1b'
  else none

/-- The character whose number is written in hexadecimal digits. -/
def numbered? (digits : Text) : Option Char := (hexNumber? digits).bind charOfNumber?

/-- One more character before what has been read. -/
def push (c : Option Char) (r : Option (Text × Text)) : Option (Text × Text) :=
  match c, r with
  | some c, some (t, rest) => some (c :: t, rest)
  | _, _ => none

/-- The text of a one-line string in double quotes, up to the closing quote. -/
def basic : Reader Text
  | [] => none
  | '"' :: t => some ([], t)
  | '\\' :: 'x' :: a :: b :: t => push (numbered? [a, b]) (basic t)
  | '\\' :: 'u' :: a :: b :: c :: d :: t => push (numbered? [a, b, c, d]) (basic t)
  | '\\' :: 'U' :: a :: b :: c :: d :: e :: f :: g :: h :: t =>
    push (numbered? [a, b, c, d, e, f, g, h]) (basic t)
  | '\\' :: c :: t => push (escaped? c) (basic t)
  | c :: t => if isVisible c && c != '\\' then push c (basic t) else none

/-- The text of a one-line string in single quotes, up to the closing quote. -/
def literal : Reader Text
  | [] => none
  | '\'' :: t => some ([], t)
  | c :: t => if isVisible c then push c (literal t) else none

/-- Whether nothing but gaps comes before the end of the line. -/
def endsLine (t : Text) : Bool :=
  match t.dropWhile isGap with
  | '\n' :: _ => true
  | '\r' :: '\n' :: _ => true
  | _ => false

/-- The text of a string of several lines in double quotes, up to the closing quotes; `skipping`
says that blanks and line endings are left out here. -/
def basicLines (skipping : Bool) : Reader Text
  | [] => none
  | '"' :: '"' :: '"' :: '"' :: '"' :: t => some (['"', '"'], t)
  | '"' :: '"' :: '"' :: '"' :: t => some (['"'], t)
  | '"' :: '"' :: '"' :: t => some ([], t)
  | '\\' :: 'x' :: a :: b :: t => push (numbered? [a, b]) (basicLines false t)
  | '\\' :: 'u' :: a :: b :: c :: d :: t => push (numbered? [a, b, c, d]) (basicLines false t)
  | '\\' :: 'U' :: a :: b :: c :: d :: e :: f :: g :: h :: t =>
    push (numbered? [a, b, c, d, e, f, g, h]) (basicLines false t)
  | '\\' :: c :: t =>
    if endsLine (c :: t) then basicLines true t
    else push (escaped? c) (basicLines false t)
  | '\r' :: '\n' :: t =>
    if skipping then basicLines true t else push '\r' (push '\n' (basicLines false t))
  | c :: t =>
    if skipping && (isGap c || c == '\n') then basicLines true t
    else if (isVisible c || c == '\n') && c != '\\' then push c (basicLines false t)
    else none

/-- The text of a string of several lines in single quotes, up to the closing quotes. -/
def literalLines : Reader Text
  | [] => none
  | '\'' :: '\'' :: '\'' :: '\'' :: '\'' :: t => some (['\'', '\''], t)
  | '\'' :: '\'' :: '\'' :: '\'' :: t => some (['\''], t)
  | '\'' :: '\'' :: '\'' :: t => some ([], t)
  | '\r' :: '\n' :: t => push '\r' (push '\n' (literalLines t))
  | c :: t => if isVisible c || c == '\n' then push c (literalLines t) else none

def lineEnd : Reader Bool := do
  if ← Reader.accept ['\n'] then return true
  Reader.accept ['\r', '\n']

def oneLine? : Reader (Option Text) := do
  if ← Reader.accept ['"'] then return some (← basic)
  if ← Reader.accept ['\''] then return some (← literal)
  return none

def quoted? : Reader (Option Text) := do
  if ← Reader.accept ['"', '"', '"'] then
    let _ ← lineEnd
    return some (← basicLines false)
  if ← Reader.accept ['\'', '\'', '\''] then
    let _ ← lineEnd
    return some (← literalLines)
  oneLine?

/-! ## Dates and times

A moment is a date, a time of day, or a date and a time with or without an
offset.  Only days and times that exist are moments, where a minute may have a
sixty-first second, and an offset is less than a day. -/

def twoDigits? (a b : Char) : Option Nat :=
  if a.isDigit && b.isDigit then
    some (10 * (a.toNat - '0'.toNat) + (b.toNat - '0'.toNat))
  else none

/-- Whether a year has a day added to its second month. -/
def isLeap (year : Nat) : Bool := (year % 4 == 0 && year % 100 != 0) || year % 400 == 0

def daysIn (year month : Nat) : Nat :=
  if month = 2 then (if isLeap year then 29 else 28)
  else if month = 4 ∨ month = 6 ∨ month = 9 ∨ month = 11 then 30
  else 31

/-- What follows a date that the text begins with. -/
def afterDate? : Text → Option Text
  | a :: b :: c :: d :: '-' :: e :: f :: '-' :: g :: h :: t =>
    match twoDigits? a b, twoDigits? c d, twoDigits? e f, twoDigits? g h with
    | some century, some rest, some month, some day =>
      if 1 ≤ month ∧ month ≤ 12 ∧ 1 ≤ day ∧ day ≤ daysIn (100 * century + rest) month
        then some t else none
    | _, _, _, _ => none
  | _ => none

/-- What follows hours and minutes that the text begins with. -/
def afterHours? : Text → Option Text
  | a :: b :: ':' :: c :: d :: t =>
    match twoDigits? a b, twoDigits? c d with
    | some hour, some minute => if hour ≤ 23 ∧ minute ≤ 59 then some t else none
    | _, _ => none
  | _ => none

/-- What follows the fraction of a second, if the text begins with one. -/
def afterFraction? : Text → Option Text
  | '.' :: c :: t => if c.isDigit then some (t.dropWhile Char.isDigit) else none
  | '.' :: [] => none
  | t => some t

/-- What follows a time of day that the text begins with.  The seconds may be left out. -/
def afterTime? (t : Text) : Option Text :=
  match afterHours? t with
  | some (':' :: a :: b :: rest) =>
    match twoDigits? a b with
    | some second => if second ≤ 60 then afterFraction? rest else none
    | none => none
  | some (':' :: _) => none
  | some rest => some rest
  | none => none

/-- Whether a text is the offset of a time, or empty. -/
def isOffset : Text → Bool
  | [] => true
  | ['Z'] => true
  | ['z'] => true
  | [sign, a, b, ':', c, d] =>
    (sign == '+' || sign == '-') &&
      match twoDigits? a b, twoDigits? c d with
      | some hour, some minute => hour ≤ 23 && minute ≤ 59
      | _, _ => false
  | _ => false

/-- Whether a character may stand between a date and a time. -/
def isDateEnd (c : Char) : Bool := c == 'T' || c == 't' || c == ' '

def isDate (t : Text) : Bool := afterDate? t == some []

def isMoment (t : Text) : Bool :=
  match afterDate? t with
  | some [] => true
  | some (c :: rest) => isDateEnd c && ((afterTime? rest).map isOffset).getD false
  | none => afterTime? t == some []

end Toml

end Compendium
