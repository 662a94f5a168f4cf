/-
# `Compendium.Text.Reader` — reading a text from its start

A reader takes something off the start of a text and says what is left, or
refuses.  The formats that settings come in are read with these few readers.
-/
import Compendium.Text.Basic

namespace Compendium

/-- Reads an `α` from the start of a text and gives what is left, or refuses. -/
def Reader (α : Type) : Type := Text → Option (α × Text)

namespace Reader

variable {α β : Type}

instance : Monad Reader where
  pure a := fun t => some (a, t)
  bind r f := fun t =>
    match r t with
    | some (a, t') => f a t'
    | none => none

def refuse : Reader α := fun _ => none

/-- The next character, which stays; none at the end. -/
def look : Reader (Option Char) := fun t => some (t.head?, t)

def char : Reader Char
  | [] => none
  | c :: t => some (c, t)

def run (p : Char → Bool) : Reader Text := fun t => some (t.takeWhile p, t.dropWhile p)

/-- Whether the text begins with `lead`, which is then taken. -/
def accept (lead : Text) : Reader Bool := fun t =>
  match Text.after? lead t with
  | some rest => some (true, rest)
  | none => some (false, t)

def expect (lead : Text) : Reader Unit := fun t => (Text.after? lead t).map ((), ·)

def whole (r : Reader α) (t : Text) : Option α :=
  match r t with
  | some (a, []) => some a
  | _ => none

end Reader

def hexValue? (c : Char) : Option Nat :=
  if c.isDigit then some (c.toNat - '0'.toNat)
  else if 'a' ≤ c && c ≤ 'f' then some (c.toNat - 'a'.toNat + 10)
  else if 'A' ≤ c && c ≤ 'F' then some (c.toNat - 'A'.toNat + 10)
  else none

def hexNumber? (digits : Text) : Option Nat :=
  digits.foldlM (fun n c => (hexValue? c).map (16 * n + ·)) 0

/-- The character with a number, unless the number is a surrogate or too large. -/
def charOfNumber? (n : Nat) : Option Char :=
  if n.isValidChar then some (Char.ofNat n) else none

end Compendium
