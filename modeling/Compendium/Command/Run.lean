/-
# `Compendium.Command.Run` — a run of the program, from its words to its report

A run reads its command line, carries out the order with it, and reports what
it printed and logged, with which status it ended, why it failed if it did,
and the disk that it left.

A command line is read on two levels, before and behind the verb.  The options
of a verb are a layer over the settings: they can set paths, and turn switches
on but not off.
-/
import Compendium.Assembly.Library
import Compendium.CommandLine
import Compendium.Settings.File

namespace Compendium

/-! ## Orders

What can be given both before and behind the verb counts as given behind it if
it is given there at all; the switch among them is on if it is on anywhere. -/

/-- What the program is asked to do, with the options for it. -/
inductive Order where
  | compile (options : Layer)
  | contents (options : Layer)
  | init (output : Path) (format : Text) (force : Bool)
deriving DecidableEq

/-- A command line that has been understood.  Without an order a document is compiled. -/
structure Invocation where
  verbose : Bool
  files : List Path
  overrides : List Text
  order : Option Order
deriving DecidableEq

/-- The settings with the options of an order over them. -/
def Settings.withOptions (s : Settings) (l : Layer) : Settings where
  input := l.input.or s.input
  output := l.output.or s.output
  deeper := s.deeper || l.deeper.getD false
  contents := s.contents || l.contents.getD false
  root := l.root.or s.root
  strict := s.strict || l.strict.getD false

/-- The settings under which an order is carried out. -/
def Order.settings (s : Settings) : Order → Settings
  | .compile options => s.withOptions options
  | .contents options => s.withOptions options
  | .init _ _ _ => s

namespace Given

/-- The path given for a parameter. -/
def path? (g : Given) (p : Param) : Option Path := (g.valueOf? p).map Path.mk

/-- A switch that has been given. -/
def switch? (g : Given) (p : Param) : Option Bool := if g.has p then some true else none

def layer (g : Given) : Layer where
  input := g.path? .input
  output := g.path? .output
  deeper := g.switch? .deeper
  contents := g.switch? .contents
  root := g.path? .root
  strict := g.switch? .strict

def defaultOutput : Path := ⟨"mdcomp.toml".toList⟩

def defaultFormat : Text := "toml".toList

/-- The order that a verb and what is given behind it make. -/
def order (g : Given) : Verb → Order
  | .compile => .compile g.layer
  | .contents => .contents g.layer
  | .init => .init ((g.path? .output).getD defaultOutput) ((g.valueOf? .format).getD defaultFormat)
    (g.has .force)

end Given

namespace Invocation

/-- The values given behind the verb, or else before it. -/
def inner (outer behind : Given) (p : Param) : List Text :=
  if behind.has p then behind.valuesOf p else outer.valuesOf p

/-- What two levels of a command line say. -/
def ofLevels (outer behind : Given) (order : Option Order) : Invocation where
  verbose := outer.has .verbose || behind.has .verbose
  files := (inner outer behind .files).map Path.mk
  overrides := inner outer behind .overrides
  order := order

def ofWords [CommandLine] (words : List Text) : Except Refusal Invocation :=
  (CommandLine.read words).map fun
    | (outer, none) => ofLevels outer .nothing none
    | (outer, some (verb, behind)) => ofLevels outer behind (some (behind.order verb))

end Invocation

/-! ## Why a command fails -/

inductive CommandError where
  | settings (e : SettingsError)
  | fault (f : Fault)
  | noInput
  | omissions (os : List Omission)
  | unwritable (path : Path)
deriving DecidableEq

def CommandError.message : CommandError → Text
  | .settings e => e.message
  | .fault f => f.message
  | .noInput =>
    "No input file specified. Pass it as an argument or set it in the config file.".toList
  | .omissions os =>
    SettingsError.listed
      ((toString os.length).toList ++ " include(s) could not be resolved:".toList)
      (os.map Omission.message)
  | .unwritable p => "Failed to write ".toList ++ p.text ++ ": ".toList

/-! ## Assembling

A compile checks the two paths, assembles the root document, and writes the
result.  Omissions are logged if that is asked for or the settings are strict;
strict settings do not allow any, and then nothing is written. -/

/-- The result of a command, the log of it, and the disk after it. -/
structure Outcome (α : Type) where
  result : Except CommandError α
  log : List LogLine
  disk : Disk

/-- A document as it is written to a file: trimmed, with one line ending. -/
def fileText (content : Text) : Text := Text.trim content ++ ['\n']

def Disk.save (d : Disk) (p : Path) (content : Text) : Except CommandError Disk :=
  match d.write? p (fileText content) with
  | some d' => .ok d'
  | none => .error (.unwritable p)

namespace Settings

/-- Assembles the document of these settings and writes it. -/
def compile (s : Settings) (home : Path) (report : Bool) (d : Disk) : Outcome Assembly :=
  match s.paths home d with
  | .error e => ⟨.error (.settings e), [], d⟩
  | .ok (input, output) =>
    let begun : LogLine := .info ("Compiling ".toList ++ input.text)
    match d.assemble (s.options home) input with
    | .error f => ⟨.error (.fault f), [begun], d⟩
    | .ok c =>
      let warnings := if report || s.strict
        then c.omissions.map fun o => LogLine.warning ("Dropped ".toList ++ o.message) else []
      if s.strict && !c.omissions.isEmpty then
        ⟨.error (.omissions c.omissions), begun :: warnings, d⟩
      else
        match d.save output c.content with
        | .error e => ⟨.error e, begun :: warnings, d⟩
        | .ok d' =>
          ⟨.ok c, begun :: warnings ++
            [.info ("Compiled document written to ".toList ++ output.text)], d'⟩

/-- The list of contents of the document of these settings, where every heading has an anchor. -/
def contentsList (s : Settings) (home : Path) (d : Disk) : Except CommandError Text :=
  match s.inputPath? home with
  | none => .error .noInput
  | some input =>
    match d.assemble { s.options home with contents := true } input with
    | .error f => .error (.fault f)
    | .ok c => .ok c.contents

end Settings

/-! ## Making a settings file

The template of a format is written to a file, in a folder that is made where
it is missing.  A file that exists is only replaced by force. -/

def writeTemplate (format : Text) (p : Path) (d : Disk) :
    Except SettingsError Disk × List LogLine :=
  match template format with
  | .error e => (.error e, [])
  | .ok t =>
    match d.write? p t with
    | none => (.error (.unwritable p), [])
    | some d' => (.ok d', [.info ("Created default configuration file: ".toList ++ p.text)])

inductive InitError where
  | exists (path : Path)
  | noFolder (folder : Path)
  | noFile (path : Path)
deriving DecidableEq

def InitError.message : InitError → Text
  | .exists p =>
    "Configuration file already exists: ".toList ++ p.text ++ ". Use --force to overwrite.".toList
  | .noFolder p => "Failed to create directory: ".toList ++ p.text
  | .noFile p => "Failed to generate configuration file: ".toList ++ p.text

def missingFolder? (d : Disk) (p : Path) : Option Path :=
  match p.parent? with
  | none => none
  | some folder => if folder.isEmpty || d.holds folder then none else some folder

def makeMissingFolder (d : Disk) (p : Path) : Except InitError Unit × List LogLine × Disk :=
  match missingFolder? d p with
  | none => (.ok (), [], d)
  | some folder =>
    match d.makeFolders? folder with
    | none => (.error (.noFolder folder), [], d.withFolders folder)
    | some d' => (.ok (), [.info ("Created directory: ".toList ++ folder.text)], d')

def initialise (p : Path) (format : Text) (force : Bool) (d : Disk) :
    Except InitError Unit × List LogLine × Disk :=
  if d.holds p && !force then (.error (.exists p), [], d)
  else
    match makeMissingFolder d p with
    | (.error e, log, d') => (.error e, log, d')
    | (.ok _, log, d') =>
      match writeTemplate format p d' with
      | (.error _, log') => (.error (.noFile p), log ++ log', d')
      | (.ok d'', log') =>
        (.ok (), log ++ log' ++ [.info ("Configuration file created successfully. ".toList ++
          "Edit it to point at your document.".toList)], d'')

/-! ## Runs -/

inductive Status where
  | done
  | failed (message : Text)
  | refused (r : Refusal)
deriving DecidableEq

/-- The exit code for a status.  Showing the version is no failure. -/
def Status.code : Status → Nat
  | .done => 0
  | .failed _ => 1
  | .refused .versionWanted => 0
  | .refused .helpWanted => 0
  | .refused _ => 2

structure Report where
  status : Status
  printed : Text
  log : List LogLine
  disk : Disk

def versionLine : Text := "mdcomp 0.1.0\n".toList

/-- How many lines a text has, where a line ending at the end of the text begins no further one. -/
def lineCount (t : Text) : Nat := (lines t).length

/-- The last log line of a compile. -/
def summary (c : Assembly) : LogLine :=
  .info ("Done: ".toList ++ (toString (lineCount c.content)).toList ++ " lines, ".toList ++
    (toString c.omissions.length).toList ++ " dropped include(s)".toList)

def loadFailure : Text := "Failed to load configuration".toList

namespace Invocation

/-- The settings that an invocation works with, and what is logged about them. -/
def settings [Formats] (i : Invocation) (d : Disk) : Except SettingsError Settings × List LogLine :=
  match Settings.load d i.files i.overrides with
  | (.error e, log) => (.error e, log)
  | (.ok s, log) => (.ok (i.order.elim s (Order.settings s)), log)

def compile (i : Invocation) (home : Path) (s : Settings) (log : List LogLine) (d : Disk) :
    Report :=
  let out := s.compile home i.verbose d
  match out.result with
  | .error e => ⟨.failed e.message, [], log ++ out.log, out.disk⟩
  | .ok c => ⟨.done, [], log ++ out.log ++ [summary c], out.disk⟩

def printContents (home : Path) (s : Settings) (log : List LogLine) (d : Disk) : Report :=
  match s.contentsList home d with
  | .error e => ⟨.failed e.message, [], log, d⟩
  | .ok list => ⟨.done, list ++ ['\n'], log, d⟩

def run [Formats] (i : Invocation) (home : Path) (d : Disk) : Report :=
  match i.order with
  | some (.init output format force) =>
    match initialise output format force d with
    | (.error e, log, d') => ⟨.failed e.message, [], log, d'⟩
    | (.ok _, log, d') => ⟨.done, [], log, d'⟩
  | order =>
    match i.settings d with
    | (.error _, log) => ⟨.failed loadFailure, [], log, d⟩
    | (.ok s, log) =>
      match order with
      | some (.contents _) => printContents home s log d
      | _ => i.compile home s log d

end Invocation

/-- Runs the program on its words, where `home` is the root folder of the program. -/
def run [Formats] [CommandLine] (home : Path) (words : List Text) (d : Disk) : Report :=
  match Invocation.ofWords words with
  | .error .versionWanted => ⟨.refused .versionWanted, versionLine, [], d⟩
  | .error r => ⟨.refused r, [], [], d⟩
  | .ok i => i.run home d

end Compendium
