/-
# `Compendium.Settings.Basic` — what is assembled, from what, and how

Settings name the root document and the file for the result, the root folder,
and three switches.  They come in layers.  A `Layer` is what one settings file
sets; `Settings.merge` lets the settings of a later file count.  A path that a
file leaves out keeps its earlier value, but a switch that it leaves out is
off.

An override, given as `KEY=VALUE`, sets one key.  An empty value unsets a path.
The switches understand a few words, in upper or lower case.  Overrides are
applied in order up to the first one that is wrong; what the ones before it
have set stays set.
-/
import Compendium.Assembly

namespace Compendium

/-- What can be set. -/
inductive Key where
  | input
  | output
  | deeper
  | contents
  | root
  | strict
deriving DecidableEq

namespace Key

/-- The keys, in the order in which settings may also be listed without their names. -/
def all : List Key := [input, output, deeper, contents, root, strict]

def name : Key → Text
  | input => "input".toList
  | output => "output".toList
  | deeper => "adjust_headings".toList
  | contents => "insert_toc".toList
  | root => "root_dir".toList
  | strict => "strict".toList

def ofName? (t : Text) : Option Key := all.find? (·.name = t)

end Key

/-- The settings of a run.  Without a root folder of its own, a run has that of the program. -/
structure Settings where
  input : Option Path
  output : Option Path
  deeper : Bool
  contents : Bool
  root : Option Path
  strict : Bool
deriving DecidableEq

namespace Settings

def blank : Settings := ⟨none, none, false, false, none, false⟩

/-- The settings with those of a later file over them. -/
def merge (s later : Settings) : Settings where
  input := later.input.or s.input
  output := later.output.or s.output
  deeper := later.deeper
  contents := later.contents
  root := later.root.or s.root
  strict := later.strict

def rootFolder (s : Settings) (home : Path) : Path := s.root.getD home

def inputPath? (s : Settings) (home : Path) : Option Path :=
  s.input.map fun p => .ofWritten (s.rootFolder home) p.text

def outputPath? (s : Settings) (home : Path) : Option Path :=
  s.output.map fun p => .ofWritten (s.rootFolder home) p.text

def options (s : Settings) (home : Path) : Options := ⟨s.deeper, s.contents, s.rootFolder home⟩

end Settings

/-- The value that a key is set to. -/
inductive Setting where
  | unset
  | path (p : Path)
  | flag (b : Bool)
deriving DecidableEq

/-- What one settings file sets. -/
structure Layer where
  input : Option Path
  output : Option Path
  deeper : Option Bool
  contents : Option Bool
  root : Option Path
  strict : Option Bool
deriving DecidableEq

namespace Layer

def blank : Layer := ⟨none, none, none, none, none, none⟩

/-- The layer with one more key set.  A path may be unset, a switch not. -/
def set? (l : Layer) : Key → Setting → Option Layer
  | .input, .path p => some { l with input := p }
  | .output, .path p => some { l with output := p }
  | .root, .path p => some { l with root := p }
  | .input, .unset => some { l with input := none }
  | .output, .unset => some { l with output := none }
  | .root, .unset => some { l with root := none }
  | .deeper, .flag b => some { l with deeper := b }
  | .contents, .flag b => some { l with contents := b }
  | .strict, .flag b => some { l with strict := b }
  | _, _ => none

/-- The layer in which some keys are set, each at most once. -/
def ofSettings? (pairs : List (Key × Setting)) : Option Layer :=
  if (pairs.map Prod.fst).Nodup then pairs.foldlM (fun l (k, v) => l.set? k v) blank else none

def settings (l : Layer) : Settings where
  input := l.input
  output := l.output
  deeper := l.deeper.getD false
  contents := l.contents.getD false
  root := l.root
  strict := l.strict.getD false

end Layer

/-! ## What can be wrong with settings

Causes that lie with the system or with the grammar of a format are named
without their details. -/

/-- What is wrong with the two paths of a run. -/
inductive PathProblem where
  | noInput
  | inputNotMarkdown
  | inputMissing (path : Path)
  | noOutput
  | outputNotMarkdown
  | folderMissing (path : Path)
deriving DecidableEq

def PathProblem.message : PathProblem → Text
  | noInput => "No input file specified.".toList
  | inputNotMarkdown => "Input file must have a '.md' file extension.".toList
  | inputMissing p =>
    "Input file (".toList ++ p.text ++
      ") does not exist. Please check the path and file name.".toList
  | noOutput => "No output file specified.".toList
  | outputNotMarkdown => "Output file must have a '.md' file extension.".toList
  | folderMissing p =>
    "Output directory (".toList ++ p.text ++
      ") does not exist. Please fix or create it.".toList

/-- Why there are no settings, or no settings file. -/
inductive SettingsError where
  /-- An override is not a key and a value with `=` between them. -/
  | notAnOverride (text : Text)
  | unknownKey (key : Text)
  | notASwitch (key value : Text)
  | noExtension (path : Path)
  | unknownExtension (path : Path)
  | unknownFormat (format : Text)
  | badPaths (problems : List PathProblem)
  | unwritable (path : Path)
  | unreadable
  | badJson
  | badToml
deriving DecidableEq

namespace SettingsError

def listed (heading : Text) (items : List Text) : Text :=
  heading ++ "\n- ".toList ++ List.intercalate "\n- ".toList items

def message : SettingsError → Text
  | notAnOverride t => config ("Invalid config override format: '".toList ++ t ++
      "'. Expected KEY=VALUE".toList)
  | unknownKey k => config ("Unknown configuration key: '".toList ++ k ++
      "'. See documentation for supported keys.".toList)
  | notASwitch k v => config ("Invalid boolean value for '".toList ++ k ++ "': '".toList ++ v ++
      "'. Expected true/false, yes/no, or 1/0".toList)
  | noExtension p => config ("Config file has no extension: ".toList ++ p.text)
  | unknownExtension p => config ("Unsupported config file format: ".toList ++ p.text)
  | unknownFormat f => "Unsupported config format: ".toList ++ f
  | badPaths ps => listed "The following errors were found:".toList (ps.map PathProblem.message)
  | unwritable p => config ("Failed to write default config to ".toList ++ p.text ++ ": ".toList)
  | unreadable => "I/O error: ".toList
  | badJson => "JSON error: ".toList
  | badToml => "TOML error: ".toList
where
  config (t : Text) : Text := "Configuration error: ".toList ++ t

end SettingsError

/-! ## Overrides -/

namespace Settings

/-- The value of a switch. -/
def switch? (value : Text) : Option Bool :=
  let v := Text.lower value
  if v = "true".toList ∨ v = "yes".toList ∨ v = "1".toList then some true
  else if v = "false".toList ∨ v = "no".toList ∨ v = "0".toList then some false
  else none

/-- The path that a value stands for, none if it is empty. -/
def valuePath? (value : Text) : Option Path := if value = [] then none else some ⟨value⟩

def set (s : Settings) (key value : Text) : Except SettingsError Settings :=
  let switched (f : Bool → Settings) : Except SettingsError Settings :=
    match switch? value with
    | some b => .ok (f b)
    | none => .error (.notASwitch key value)
  match Key.ofName? key with
  | some .input => .ok { s with input := valuePath? value }
  | some .output => .ok { s with output := valuePath? value }
  | some .root => .ok { s with root := valuePath? value }
  | some .deeper => switched fun b => { s with deeper := b }
  | some .contents => switched fun b => { s with contents := b }
  | some .strict => switched fun b => { s with strict := b }
  | none => .error (.unknownKey key)

/-- The key and the value of an override, trimmed. -/
def splitOverride? (t : Text) : Option (Text × Text) :=
  match t.dropWhile (· != '=') with
  | [] => none
  | _ :: value => some (Text.trim (t.takeWhile (· != '=')), Text.trim value)

/-- The settings with one override applied. -/
def override (s : Settings) (t : Text) : Except SettingsError Settings :=
  match splitOverride? t with
  | some (key, value) => s.set key value
  | none => .error (.notAnOverride t)

/-- The settings with overrides applied up to the first error, and that error. -/
def overrideAll (s : Settings) : List Text → Settings × Option SettingsError
  | [] => (s, none)
  | t :: ts =>
    match s.override t with
    | .ok s' => s'.overrideAll ts
    | .error e => (s, some e)

end Settings

end Compendium
