/-
# `Compendium.Json.Value` — JSON texts, read

A JSON text is one value with blanks around it.  Strings may name code units
by number, so a string may fail to be a text; it is then kept as `none`, and
whoever asks for it refuses.  Numbers are kept as they are written.  Objects
keep their members in order, repeated ones included.
-/
import Compendium.Text.Reader

namespace Compendium

inductive JsonValue where
  | null
  | bool (b : Bool)
  | number (literal : Text)
  | string (t : Option Text)
  | array (elements : List JsonValue)
  | object (members : List (Option Text × JsonValue))

namespace JsonValue

/-- The blanks that may stand between the parts of a JSON text. -/
def isSpace (c : Char) : Bool := c == ' ' || c == '\t' || c == '\r' || c == '\n'

/-- Takes the blanks at the start. -/
def spaces : Reader Unit := do
  let _ ← Reader.run isSpace

/-! ## Strings -/

/-- A part of a string: a character, or a UTF-16 code unit given by its number. -/
inductive Part where
  | char (c : Char)
  | unit (n : Nat)
deriving DecidableEq

/-- The character that a backslash and one more character stand for. -/
def escaped? (c : Char) : Option Char :=
  if c = '"' ∨ c = '\\' ∨ c = '/' then some c
  else if c = 'b' then some '\x08'
  else if c = 'f' then some '\x0c'
  else if c = 'n' then some '\n'
  else if c = 'r' then some '\r'
  else if c = 't' then some '\t'
  else none

/-- The parts of a string up to its closing quote, which is taken too. -/
def parts : Reader (List Part)
  | [] => none
  | '"' :: t => some ([], t)
  | '\\' :: 'u' :: a :: b :: c :: d :: t =>
    match hexNumber? [a, b, c, d], parts t with
    | some n, some (ps, rest) => some (.unit n :: ps, rest)
    | _, _ => none
  | '\\' :: e :: t =>
    match escaped? e, parts t with
    | some c, some (ps, rest) => some (.char c :: ps, rest)
    | _, _ => none
  | c :: t =>
    if c.toNat < 0x20 then none
    else
      match parts t with
      | some (ps, rest) => some (.char c :: ps, rest)
      | none => none

/-- Whether a code unit is the first half of a pair. -/
def isHigh (n : Nat) : Bool := 0xD800 ≤ n && n < 0xDC00

/-- Whether a code unit is the second half of a pair. -/
def isLow (n : Nat) : Bool := 0xDC00 ≤ n && n < 0xE000

/-- The text of a string, unless a code unit is half a pair without the other half. -/
def decode : List Part → Option Text
  | [] => some []
  | .char c :: ps => (decode ps).map (c :: ·)
  | .unit n :: .unit m :: ps =>
    if isHigh n then
      if isLow m then
        (decode ps).map (Char.ofNat (0x10000 + (n - 0xD800) * 0x400 + (m - 0xDC00)) :: ·)
      else none
    else
      match charOfNumber? n, decode (.unit m :: ps) with
      | some c, some t => some (c :: t)
      | _, _ => none
  | .unit n :: ps =>
    match charOfNumber? n, decode ps with
    | some c, some t => some (c :: t)
    | _, _ => none

/-- Takes a string, from its opening quote on. -/
def quoted : Reader (Option Text) := do
  Reader.expect ['"']
  return decode (← parts)

/-! ## Numbers and names -/

/-- A character of a number or a name. -/
def isWordChar (c : Char) : Bool := c.isAlphanum || c == '-' || c == '+' || c == '.'

/-- At least one digit, and nothing else. -/
def isDigits (t : Text) : Bool := !t.isEmpty && t.all Char.isDigit

/-- The digits before a point or an exponent: one zero alone, or no zero in front. -/
def isWhole (t : Text) : Bool := isDigits t && (t.head? != some '0' || t == ['0'])

/-- The letter that begins an exponent. -/
def isExponentMark (c : Char) : Bool := c == 'e' || c == 'E'

/-- The digits of an exponent, after a sign or none. -/
def isExponent : Text → Bool
  | '-' :: t => isDigits t
  | '+' :: t => isDigits t
  | t => isDigits t

/-- A number without its sign. -/
def isUnsigned (t : Text) : Bool :=
  let mantissa := t.takeWhile (!isExponentMark ·)
  let whole := mantissa.takeWhile (· != '.')
  let exponentOk :=
    match t.dropWhile (!isExponentMark ·) with
    | [] => true
    | _ :: e => isExponent e
  let fractionOk :=
    match mantissa.dropWhile (· != '.') with
    | [] => true
    | _ :: f => isDigits f
  isWhole whole && fractionOk && exponentOk

def isNumber : Text → Bool
  | '-' :: t => isUnsigned t
  | t => isUnsigned t

def word : Reader JsonValue := do
  let w ← Reader.run isWordChar
  if w = "null".toList then return .null
  else if w = "true".toList then return .bool true
  else if w = "false".toList then return .bool false
  else if isNumber w then return .number w
  else Reader.refuse

/-! ## Values -/

mutual

/-- Takes a value.  Values may lie `depth` deep and far in others. -/
def value : Nat → Reader JsonValue
  | 0 => Reader.refuse
  | depth + 1 => do
    spaces
    match ← Reader.look with
    | some '"' => return .string (← quoted)
    | some '[' =>
      let _ ← Reader.char
      spaces
      if ← Reader.accept [']'] then return .array []
      return .array (← elements depth)
    | some '\x7b' =>
      let _ ← Reader.char
      spaces
      if ← Reader.accept ['\x7d'] then return .object []
      return .object (← members depth)
    | _ => word

/-- Takes the elements of an array, at least one, and the bracket that closes it. -/
def elements : Nat → Reader (List JsonValue)
  | 0 => Reader.refuse
  | depth + 1 => do
    let v ← value depth
    spaces
    if ← Reader.accept [','] then return v :: (← elements depth)
    Reader.expect [']']
    return [v]

/-- Takes the members of an object, at least one, and the brace that closes it. -/
def members : Nat → Reader (List (Option Text × JsonValue))
  | 0 => Reader.refuse
  | depth + 1 => do
    spaces
    let k ← quoted
    spaces
    Reader.expect [':']
    let v ← value depth
    spaces
    if ← Reader.accept [','] then return (k, v) :: (← members depth)
    Reader.expect ['\x7d']
    return [(k, v)]

end

def ofText? (t : Text) : Option JsonValue :=
  Reader.whole (do
    let v ← value (2 * t.length + 2)
    spaces
    return v) t

end JsonValue
end Compendium
