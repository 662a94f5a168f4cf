/-
# `Compendium.Main` — the program

What a run does is said by `Compendium.run`, on a disk that is known.  A disk
need not be known as a whole for that.  What a run looks at is named by
`Compendium.reach`, as far as it can be told from what is known already: the
settings files first, then the two paths that they set, then the targets that
the documents name.  Once all of these are known, so is all that the run needs.

That part of the disk is read, the run is carried out on it, and what it
changed, printed and logged is handed on.
-/
import Compendium.Command.Run

namespace Compendium

/-! ## What a run looks at -/

/-- The paths that lead up to a path, and the path itself, the shortest one first. -/
def Path.leading (p : Path) : List Path :=
  ((List.range p.text.length).filter (p.text[·]? == some '/')).map (⟨p.text.take ·⟩) ++ [p]

/-- The targets that an assembly did not find. -/
def Disk.missingTargets (d : Disk) (opts : Options) (input : Path) : List Path :=
  (d.store.expand opts (Store.baseFolder input) (d.depth opts input) input.canonical
    .empty []).2.2.map Omission.target

/-- The paths that an assembly under these settings looks at, with contents and without. -/
def Settings.reach (s : Settings) (home : Path) (d : Disk) : List Path :=
  (s.outputPath? home).toList ++
    match s.inputPath? home with
    | none => []
    | some input =>
      [input, input.canonical] ++ [true, false].flatMap fun contents =>
        d.missingTargets { s.options home with contents := contents } input

namespace Invocation

def settingsFiles (i : Invocation) (d : Disk) : List Path :=
  if i.files.isEmpty then Settings.knownNames.map d.workingPath.join else i.files

def reach [Formats] (i : Invocation) (home : Path) (d : Disk) : List Path :=
  match i.order with
  | some (.init output _ _) => [output]
  | _ =>
    i.settingsFiles d ++
      match (i.settings d).1 with
      | .error _ => []
      | .ok s => s.reach home d

end Invocation

/-- The paths that a run looks at. -/
def reach [Formats] [CommandLine] (home : Path) (words : List Text) (d : Disk) : List Path :=
  match Invocation.ofWords words with
  | .error _ => []
  | .ok i => i.reach home d

/-! ## Reading and writing -/

def Path.toName (p : Path) : String := String.ofList p.text

/-- What lies at a path, as far as it can be read. -/
def look (p : Path) : IO (Option Item) := do
  if let .ok bytes ← (IO.FS.readBinFile p.toName).toBaseIO then
    return some (.file (.ofBytes bytes.toList))
  let .ok place ← (IO.FS.realPath p.toName).toBaseIO | return none
  return if ← place.isDir then some .folder else none

/-- The disk with what lies at a path. -/
def learn (d : Disk) (p : Path) : IO Disk := do
  match d.locate p with
  | .error _ => return d
  | .ok l =>
    if (d.item? l).isSome then return d
    match ← look p with
    | none => return d
    | some i => return d.set l i

/-- The disk with all that a run looks at, where the paths `known` have been looked at already. -/
partial def explore (home : Path) (words : List Text) (known : List Path) (d : Disk) : IO Disk := do
  let paths := (reach home words d).filter (!known.contains ·)
  if paths.isEmpty then return d
  explore home words (paths ++ known) (← (paths.flatMap Path.leading).foldlM learn d)

/-- Makes the changes to a disk. -/
def apply (before after : Disk) : IO Unit := do
  for l in after.foldersSince before do
    IO.FS.createDirAll (Path.ofLocation l).toName
  for (l, c) in after.changesSince before do
    IO.FS.writeBinFile (Path.ofLocation l).toName ⟨c.bytes.toArray⟩

/-- The root folder of the program: it lies two steps above the program itself. -/
def homeFolder : IO Path := do
  let program : Path := ⟨(← IO.appPath).toString.toList⟩
  return ((program.parent?.bind Path.parent?).getD ⟨['.']⟩)

/-- The disk of which only the working folder is known. -/
def bareDisk : IO Disk := do
  let folder : Path := ⟨(← IO.currentDir).toString.toList⟩
  return ⟨folder.steps.filterMap fun s => if s.isName then some s.text else none, []⟩

def LogLine.shown (l : LogLine) : String :=
  (match l.level with | .info => "INFO " | .warning => "WARN ") ++ String.ofList l.message

end Compendium

open Compendium in
/-- Runs the program on its arguments. -/
def main (args : List String) : IO UInt32 := do
  let home ← homeFolder
  let words := args.map String.toList
  let disk ← explore home words [] (← bareDisk)
  let report := run home words disk
  apply disk report.disk
  for l in report.log do
    IO.eprintln l.shown
  IO.print (String.ofList report.printed)
  match report.status with
  | .done => pure ()
  | .failed m => IO.eprintln (String.ofList ("Error: ".toList ++ m))
  | .refused r => if report.printed.isEmpty then IO.eprintln (String.ofList r.message)
  return report.status.code.toUInt32
