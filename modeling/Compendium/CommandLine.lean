/-
# `Compendium.CommandLine` — what can be said on the command line, and reading it

There are three subcommands.  Some parameters can be given anywhere, others
only behind a subcommand that has them.  A parameter is a switch, or takes a
value; most may be given once on each level, some any number of times.

The words are read from left to right.  A value may follow its parameter in
the same word, or be the next word, unless that one looks like a parameter.  A
value that is a word of its own is only looked at when the next parameter
comes, or at the end of the level; until then it is *pending*.  Of several
things that are wrong, the one noticed first counts.

A word that names a verb ends the level before the verbs, unless a value is
awaited.  After a lone `--` nothing is taken as a parameter or a verb, and
since nothing else can stand there either, any further word is refused.
-/
import Compendium.Text.Basic

namespace Compendium

/-- What the program is asked to do. -/
inductive Verb where
  | compile
  | contents
  | init
deriving DecidableEq

def Verb.ofName? (name : Text) : Option Verb :=
  if name = "compile".toList then some .compile
  else if name = "toc".toList then some .contents
  else if name = "init".toList then some .init
  else none

inductive Param where
  | verbose
  | files
  | overrides
  | input
  | output
  | deeper
  | contents
  | root
  | strict
  | format
  | force
  | help
  | version
deriving DecidableEq

namespace Param

/-- What a parameter takes. -/
inductive Shape where
  | switch
  | value
  | values
  | help
  | version
deriving DecidableEq

def shape : Param → Shape
  | verbose | deeper | contents | strict | force => .switch
  | input | output | root | format => .value
  | files | overrides => .values
  | help => .help
  | version => .version

/-- Whether a value can be given for a parameter.  A path is not empty, and a format is one of
two. -/
def admits : Param → Text → Bool
  | .files, v | .input, v | .output, v | .root, v => !v.isEmpty
  | .format, v => v == "toml".toList || v == "json".toList
  | _, _ => true

def longName : Param → Text
  | verbose => "verbose".toList
  | files => "config-file".toList
  | overrides => "config".toList
  | input => "input".toList
  | output => "output".toList
  | deeper => "adjust-headings".toList
  | contents => "toc".toList
  | root => "root-dir".toList
  | strict => "strict".toList
  | format => "format".toList
  | force => "force".toList
  | help => "help".toList
  | version => "version".toList

/-- The letter of a parameter, where it has one. -/
def letter? : Param → Option Char
  | verbose => some 'v'
  | files => some 'c'
  | input => some 'i'
  | output => some 'o'
  | format => some 'F'
  | force => some 'f'
  | help => some 'h'
  | version => some 'V'
  | _ => none

/-- The parameters on the level of a verb, or before any verb. -/
def onLevel : Option Verb → List Param
  | none => [verbose, files, overrides, help, version]
  | some .compile => [verbose, files, overrides, help, input, output, deeper, contents, root, strict]
  | some .contents => [verbose, files, overrides, help, input, deeper, root]
  | some .init => [verbose, files, overrides, help, output, format, force]

def ofLong? (level : Option Verb) (name : Text) : Option Param :=
  (onLevel level).find? (·.longName = name)

def ofLetter? (level : Option Verb) (c : Char) : Option Param :=
  (onLevel level).find? (·.letter? = some c)

end Param

/-! ## One level -/

/-- Why a command line is refused, or not acted upon. -/
inductive Refusal where
  | unknownArgument
  | unknownVerb
  | invalidValue
  | givenTwice
  | unwantedValue
  | helpWanted
  | versionWanted
deriving DecidableEq

def Refusal.message : Refusal → Text
  | unknownArgument => "unexpected argument".toList
  | unknownVerb => "unrecognized subcommand".toList
  | invalidValue => "invalid or missing value".toList
  | givenTwice => "argument given more than once".toList
  | unwantedValue => "unexpected value for an argument that takes none".toList
  | helpWanted => "Usage: mdcomp [OPTIONS] [COMMAND]".toList
  | versionWanted => "mdcomp 0.1.0".toList

/-- What has been given on one level: parameters with their values, in order, and the parameter
whose value is awaited or has not been looked at. -/
structure Given where
  settled : List (Param × Text)
  pending : Option (Param × Option Text)
deriving DecidableEq

namespace Given

def nothing : Given := ⟨[], none⟩

def has (g : Given) (p : Param) : Bool := g.settled.any (·.1 = p)

def valuesOf (g : Given) (p : Param) : List Text :=
  (g.settled.filter (·.1 = p)).map Prod.snd

/-- The last value given for a parameter. -/
def valueOf? (g : Given) (p : Param) : Option Text := (g.valuesOf p).getLast?

/-- Adds a parameter that takes no value, or one with its value. -/
def take (g : Given) (p : Param) (v : Option Text) : Except Refusal Given :=
  match p.shape, v with
  | .help, _ => .error .helpWanted
  | .version, _ => .error .versionWanted
  | .switch, _ => if g.has p then .error .givenTwice else .ok { g with settled := g.settled ++ [(p, [])] }
  | _, none => .error .invalidValue
  | shape, some v =>
    if shape = .value ∧ g.has p then .error .givenTwice
    else if p.admits v then .ok { g with settled := g.settled ++ [(p, v)] }
    else .error .invalidValue

/-- Looks at what is pending. -/
def settle (g : Given) : Except Refusal Given :=
  match g.pending with
  | none => .ok g
  | some (p, v) => ({ g with pending := none } : Given).take p v

def add (g : Given) (p : Param) (v : Option Text) : Except Refusal Given :=
  match g.settle with
  | .ok g => g.take p v
  | .error e => .error e

def await (g : Given) (p : Param) : Except Refusal Given :=
  match g.settle with
  | .ok g => .ok { g with pending := some (p, none) }
  | .error e => .error e

def awaited? (g : Given) : Option Param :=
  match g.pending with
  | some (p, none) => some p
  | _ => none

def takesValue (p : Param) : Bool := p.shape == .value || p.shape == .values

def long (g : Given) (level : Option Verb) (w : Text) : Except Refusal Given :=
  let name := w.takeWhile (· != '=')
  match Param.ofLong? level name with
  | none => .error .unknownArgument
  | some p =>
    match w.dropWhile (· != '=') with
    | [] => if takesValue p then g.await p else g.add p none
    | _ :: v => if takesValue p then g.add p (some v) else .error .unwantedValue

def letters (g : Given) (level : Option Verb) : Text → Except Refusal Given
  | [] => .ok g
  | c :: rest =>
    match Param.ofLetter? level c with
    | none => .error .unknownArgument
    | some p =>
      if takesValue p then
        match rest with
        | [] => g.await p
        | '=' :: v => g.add p (some v)
        | v => g.add p (some v)
      else
        match g.add p none with
        | .ok g => g.letters level rest
        | .error e => .error e

/-- Why a word is refused that is neither a parameter nor a value nor a verb in its place. -/
def unexpected (level : Option Verb) (afterDashes isVerb : Bool) : Refusal :=
  if level.isNone && !(afterDashes && isVerb) then .unknownVerb else .unknownArgument

/-- The word that asks for help in the place of a verb. -/
def helpWord : Text := "help".toList

def isVerbWord (w : Text) : Bool := w == helpWord || (Verb.ofName? w).isSome

/-- What asking for help about some words comes to: at most one verb can be named. -/
def helpFor : List Text → Refusal
  | [] => .helpWanted
  | [w] => if isVerbWord w then .helpWanted else .unknownVerb
  | _ => .unknownVerb

/-- Reads one level: what is given on it, and the verb that ends it with the words behind it. -/
def read (level : Option Verb) (g : Given) :
    List Text → Except Refusal (Given × Option (Verb × List Text))
  | [] => .ok (g, none)
  | w :: ws =>
    if level.isNone && g.awaited?.isNone && isVerbWord w then
      match Verb.ofName? w with
      | some verb => .ok (g, some (verb, ws))
      | none => .error (helpFor ws)
    else
      match w with
      | ['-', '-'] =>
        match ws with
        | [] => .ok (g, none)
        | w' :: _ => .error (unexpected level true (isVerbWord w'))
      | '-' :: '-' :: rest =>
        match g.long level rest with
        | .ok g => g.read level ws
        | .error e => .error e
      | '-' :: c :: rest =>
        match g.letters level (c :: rest) with
        | .ok g => g.read level ws
        | .error e => .error e
      | w =>
        match g.awaited? with
        | some p => ({ g with pending := some (p, some w) } : Given).read level ws
        | none => .error (unexpected level false (isVerbWord w))

/-! ### What can have been given -/

/-- All that has been given, or is pending, are parameters of the level. -/
structure Fits (level : Option Verb) (g : Given) : Prop where
  settled : ∀ e ∈ g.settled, e.1 ∈ Param.onLevel level
  pending : ∀ e ∈ g.pending, e.1 ∈ Param.onLevel level

variable {level : Option Verb} {g g' : Given} {p : Param}

theorem fits_nothing (level : Option Verb) : Fits level nothing := ⟨nofun, nofun⟩

/-- A parameter that is taken is added to what has been settled, and that is all. -/
theorem take_eq_ok {v : Option Text} (h : g.take p v = .ok g') :
    ∃ u, g' = { g with settled := g.settled ++ [(p, u)] } := by
  simp only [take] at h
  split at h
  · cases h
  · cases h
  · split at h
    · cases h
    · exact ⟨[], (Except.ok.inj h).symm⟩
  · cases h
  · split at h
    · cases h
    · split at h
      · exact ⟨_, (Except.ok.inj h).symm⟩
      · cases h

theorem Fits.take (hg : Fits level g) (hp : p ∈ Param.onLevel level) {v : Option Text}
    (h : g.take p v = .ok g') : Fits level g' := by
  obtain ⟨u, rfl⟩ := take_eq_ok h
  refine ⟨fun e he => ?_, hg.pending⟩
  rcases List.mem_append.mp he with he | he
  · exact hg.settled e he
  · rwa [List.mem_singleton.mp he]

theorem Fits.settle (hg : Fits level g) (h : g.settle = .ok g') : Fits level g' := by
  simp only [Given.settle] at h
  split at h
  · exact Except.ok.inj h ▸ hg
  · next q v hq =>
    have hnone : Fits level { g with pending := none } := ⟨hg.settled, fun _ he => nomatch he⟩
    exact hnone.take (hg.pending _ hq) h

theorem Fits.add (hg : Fits level g) (hp : p ∈ Param.onLevel level) {v : Option Text}
    (h : g.add p v = .ok g') : Fits level g' := by
  simp only [Given.add] at h
  split at h
  · next g₁ h₁ => exact (hg.settle h₁).take hp h
  · cases h

theorem Fits.await (hg : Fits level g) (hp : p ∈ Param.onLevel level) (h : g.await p = .ok g') :
    Fits level g' := by
  simp only [Given.await] at h
  split at h
  · next g₁ h₁ =>
    obtain rfl := Except.ok.inj h
    refine ⟨(hg.settle h₁).settled, fun e he => ?_⟩
    rwa [← Option.some.inj he]
  · cases h

theorem Fits.long (hg : Fits level g) {w : Text} (h : g.long level w = .ok g') :
    Fits level g' := by
  simp only [Given.long] at h
  split at h
  · cases h
  · next p hp =>
    have hmem : p ∈ Param.onLevel level := List.mem_of_find?_eq_some hp
    split at h
    · split at h
      · exact hg.await hmem h
      · exact hg.add hmem h
    · split at h
      · exact hg.add hmem h
      · cases h

theorem Fits.letters {cs : Text} (hg : Fits level g) (h : g.letters level cs = .ok g') :
    Fits level g' := by
  induction cs generalizing g with
  | nil => exact Except.ok.inj h ▸ hg
  | cons c cs ih =>
      simp only [Given.letters] at h
      split at h
      · cases h
      · next p hp =>
        have hmem : p ∈ Param.onLevel level := List.mem_of_find?_eq_some hp
        split at h
        · split at h
          · exact hg.await hmem h
          · exact hg.add hmem h
          · exact hg.add hmem h
        · split at h
          · next g₁ h₁ => exact ih (hg.add hmem h₁) h
          · cases h

theorem awaited?_eq_some_iff : g.awaited? = some p ↔ g.pending = some (p, none) := by
  unfold awaited?
  split <;> simp_all

theorem Fits.read {ws : List Text} {verb : Option (Verb × List Text)} (hg : Fits level g)
    (h : g.read level ws = .ok (g', verb)) : Fits level g' := by
  fun_induction Given.read level g ws with
  -- nothing more is read: the words are at an end, there is a verb, or a lone pair of dashes
  | case1 | case2 | case4 =>
      obtain ⟨rfl, -⟩ := Prod.mk.inj (Except.ok.inj h)
      exact hg
  | case3 | case5 | case7 | case9 | case11 => cases h
  | case6 g ws rest _ g₁ h₁ _ ih => exact ih (hg.long h₁) h
  | case8 g ws c rest _ _ g₁ h₁ _ ih => exact ih (hg.letters h₁) h
  | case10 g ws w _ _ _ p hp _ ih =>
      refine ih ⟨hg.settled, fun e he => ?_⟩ h
      rw [← Option.some.inj he]
      exact hg.pending (p, none) (awaited?_eq_some_iff.mp hp)

/-- Reads the words of a command line: what is given before a verb, and the verb with what is given
behind it. -/
def ofWords (words : List Text) : Except Refusal (Given × Option (Verb × Given)) := do
  match ← nothing.read none words with
  | (outer, none) => return (← outer.settle, none)
  | (outer, some (verb, rest)) =>
    let (behind, _) ← nothing.read (some verb) rest
    let behind ← behind.settle
    let outer ← outer.settle
    return (outer, some (verb, behind))

/-- Behind a verb only what the verb has is given. -/
theorem fits_of_ofWords {words : List Text} {outer behind : Given} {verb : Verb}
    (h : ofWords words = .ok (outer, some (verb, behind))) : behind.Fits (some verb) := by
  simp only [ofWords, bind, Except.bind] at h
  split at h
  · cases h
  · split at h
    · -- without a verb nothing is given behind one
      split at h
      · cases h
      · obtain ⟨-, hnone⟩ := Prod.mk.inj (Except.ok.inj h)
        cases hnone
    · split at h
      · cases h
      · next read hread =>
        obtain ⟨given, next⟩ := read
        simp only at h
        split at h
        · cases h
        · next settled hsettle =>
          split at h
          · cases h
          · obtain ⟨-, hsome⟩ := Prod.mk.inj (Except.ok.inj h)
            obtain ⟨rfl, rfl⟩ := Prod.mk.inj (Option.some.inj hsome)
            exact ((fits_nothing _).read hread).settle hsettle

end Given

/-- How a command line is read.  What a run does depends on what is given, and not on how that is
written; but behind a verb only what the verb has can be given. -/
class CommandLine where
  read : List Text → Except Refusal (Given × Option (Verb × Given))
  fits : ∀ {words : List Text} {outer behind : Given} {verb : Verb},
    read words = .ok (outer, some (verb, behind)) → behind.Fits (some verb)

instance : CommandLine := ⟨Given.ofWords, Given.fits_of_ofWords⟩

end Compendium
