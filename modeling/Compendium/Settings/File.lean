/-
# `Compendium.Settings.File` — settings files on a disk

The extension of a file says which format it is in.  Without any file named
for a run, the working folder is searched for one of four.  The files of a run
are merged in order, and the overrides are applied last.

There is one template for each format, a settings file to start from.  The
formats go by name, in upper or lower case.
-/
import Compendium.Json.Value
import Compendium.Settings.Basic
import Compendium.Toml.Document

namespace Compendium

/-! ## Formats and templates -/

inductive Format where
  | toml
  | json
deriving DecidableEq

namespace Format

def ofName? (name : Text) : Option Format :=
  let n := Text.lower name
  if n = "toml".toList then some toml
  else if n = "json".toList then some json
  else none

/-- The lines of a template. -/
def templateLines : Format → List String
  | toml => [
    "# mdcomp configuration file",
    "",
    "# Root Markdown file to compile. Must have a .md extension.",
    "# A leading \"$ROOT/\" is replaced with the root directory (see below).",
    "input = \"docs/index.md\"",
    "",
    "# Compiled output file. Must have a .md extension and its directory must exist.",
    "output = \"build/README.md\"",
    "",
    "# Shift the headings of every included file down one level (# => ##).",
    "adjust_headings = false",
    "",
    "# Insert the generated table of contents. The TOC replaces the first",
    "# [[_TOC_]] line, or follows the first heading if there is none.",
    "insert_toc = false",
    "",
    "# Directory that \"$ROOT/\" expands to in paths and include directives.",
    "# Defaults to the parent of the directory containing the mdcomp executable.",
    "# root_dir = \"/path/to/project\"",
    "",
    "# Fail instead of silently dropping includes that are missing or cyclic.",
    "strict = false"]
  | json => [
    "\x7b",
    "  \"input\": \"docs/index.md\",",
    "  \"output\": \"build/README.md\",",
    "  \"adjust_headings\": false,",
    "  \"insert_toc\": false,",
    "  \"strict\": false",
    "\x7d"]

/-- The settings file to start from. -/
def template (f : Format) : Text := f.templateLines.flatMap fun l => l.toList ++ ['\n']

end Format

/-- The template of the format with a name. -/
def template (format : Text) : Except SettingsError Text :=
  match Format.ofName? format with
  | some f => .ok f.template
  | none => .error (.unknownFormat format)

/-! ## Settings in a JSON text

The text is an object whose members are named for the keys; members with
other names are passed over, and no key may come twice.  It may also be an
array of the values of the keys in their order, cut short where the rest is
left out. -/

def JsonValue.setting? : JsonValue → Option Setting
  | .null => some .unset
  | .bool b => some (.flag b)
  | .string (some t) => some (.path ⟨t⟩)
  | _ => none

namespace Layer

/-- The keys that an object sets, with their values. -/
def keysOfMembers? : List (Option Text × JsonValue) → Option (List (Key × Setting))
  | [] => some []
  | (none, _) :: _ => none
  | (some k, v) :: ms =>
    match Key.ofName? k, keysOfMembers? ms with
    | some key, some rest => v.setting?.map fun s => (key, s) :: rest
    | none, some rest => some rest
    | _, none => none

/-- The keys that a list of values sets, in their order. -/
def keysOfElements? : List Key → List JsonValue → Option (List (Key × Setting))
  | _, [] => some []
  | [], _ :: _ => none
  | key :: keys, v :: vs =>
    match v.setting?, keysOfElements? keys vs with
    | some s, some rest => some ((key, s) :: rest)
    | _, _ => none

def ofJsonValue? : JsonValue → Option Layer
  | .object ms => (keysOfMembers? ms).bind ofSettings?
  | .array vs => (keysOfElements? Key.all vs).bind ofSettings?
  | _ => none

end Layer

/-! ## Settings in a TOML text

The keys are those of the document's table; others are passed over. -/

def TomlValue.setting? : TomlValue → Option Setting
  | .string t => some (.path ⟨t⟩)
  | .bool b => some (.flag b)
  | _ => none

namespace Layer

def keysOfTable? : TomlTable → Option (List (Key × Setting))
  | [] => some []
  | (k, v) :: t =>
    match Key.ofName? k, keysOfTable? t with
    | some key, some rest => v.setting?.map fun s => (key, s) :: rest
    | none, some rest => some rest
    | _, none => none

def ofTomlTable? (t : TomlTable) : Option Layer := (keysOfTable? t).bind ofSettings?

end Layer

/-! ## The log of a run -/

/-- How much a log line matters. -/
inductive LogLevel where
  | info
  | warning
deriving DecidableEq

structure LogLine where
  level : LogLevel
  message : Text
deriving DecidableEq

namespace LogLine

/-- A line that says what has been done. -/
def info (message : Text) : LogLine := ⟨.info, message⟩

/-- A line that says what may be wrong. -/
def warning (message : Text) : LogLine := ⟨.warning, message⟩

end LogLine

/-! ## Files on a disk -/

/-- How texts are read in the formats of settings files.  Settings do not depend on it how this is
done, so all that follows is said for any way to do it. -/
class Formats where
  json : Text → Option JsonValue
  toml : Text → Option TomlTable

instance : Formats := ⟨JsonValue.ofText?, Toml.ofText?⟩

def Layer.ofText [Formats] (format : Format) (t : Text) : Except SettingsError Layer :=
  match format with
  | .json => ((Formats.json t).bind ofJsonValue?).elim (.error .badJson) .ok
  | .toml => ((Formats.toml t).bind ofTomlTable?).elim (.error .badToml) .ok

def Layer.ofFile [Formats] (d : Disk) (p : Path) : Except SettingsError Layer :=
  match d.read p with
  | .error _ => .error .unreadable
  | .ok t =>
    match p.extension? with
    | none => .error (.noExtension p)
    | some e =>
      match Format.ofName? e with
      | none => .error (.unknownExtension p)
      | some format => Layer.ofText format t

namespace Settings

def ofFile [Formats] (d : Disk) (p : Path) : Except SettingsError Settings :=
  (Layer.ofFile d p).map Layer.settings

def mergeFiles [Formats] (d : Disk) (s : Settings) : List Path → Except SettingsError Settings
  | [] => .ok s
  | p :: ps =>
    match ofFile d p with
    | .error e => .error e
    | .ok later => mergeFiles d (s.merge later) ps

/-- The settings files that are found without being named, the first ones first. -/
def knownNames : List Path :=
  [⟨"mdcomp.toml".toList⟩, ⟨"mdcomp.json".toList⟩, ⟨".mdcomp.toml".toList⟩, ⟨".mdcomp.json".toList⟩]

/-- The settings file in a folder. -/
def find? (d : Disk) (folder : Path) : Option Path := (knownNames.map folder.join).find? d.isFile

/-- The settings that the files of a run describe, and what is logged about them. -/
def ofFiles [Formats] (d : Disk) : List Path → Except SettingsError Settings × List LogLine
  | [] =>
    match find? d d.workingPath with
    | none => (.ok blank, [])
    | some p => (ofFile d p, [.info ("Using discovered config file: ".toList ++ p.text)])
  | p :: ps =>
    match (ofFile d p).bind fun s => mergeFiles d s ps with
    | .error e => (.error e, [])
    | .ok s =>
      (.ok s, if ps.isEmpty then []
        else [.info ("Loaded and merged ".toList ++ (toString (ps.length + 1)).toList ++
          " config files".toList)])

/-- The settings of a run before its options, and what is logged about them. -/
def load [Formats] (d : Disk) (files : List Path) (overrides : List Text) :
    Except SettingsError Settings × List LogLine :=
  match ofFiles d files with
  | (.error e, log) => (.error e, log)
  | (.ok s, log) =>
    match s.overrideAll overrides with
    | (_, some e) => (.error e, log)
    | (s', none) => (.ok s', log)

def documentExtension : Text := "md".toList

def isDocument (p : Path) : Bool := p.extension? == some documentExtension

def inputProblem? (d : Disk) : Option Path → Option PathProblem
  | none => some .noInput
  | some p =>
    if !isDocument p then some .inputNotMarkdown
    else if d.isFile p then none
    else some (.inputMissing p)

def outputProblem? (d : Disk) : Option Path → Option PathProblem
  | none => some .noOutput
  | some p =>
    if !isDocument p then some .outputNotMarkdown
    else
      match p.parent? with
      | none => none
      | some folder =>
        if folder.isEmpty || d.isFolder folder then none else some (.folderMissing folder)

def paths (s : Settings) (home : Path) (d : Disk) : Except SettingsError (Path × Path) :=
  let problems := (inputProblem? d (s.inputPath? home)).toList ++
    (outputProblem? d (s.outputPath? home)).toList
  match s.inputPath? home, s.outputPath? home, problems with
  | some input, some output, [] => .ok (input, output)
  | _, _, problems => .error (.badPaths problems)

end Settings

end Compendium
