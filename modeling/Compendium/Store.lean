/-
# `Compendium.Store` — where documents are read from

A store answers whether a path names a document, and reads it.  Reading may
fail, and a fault says why and for which path, as it was asked for.

A `Library` holds its documents itself, each under its canonical path, so that
all spellings of a path name the same document.

A `Disk` says what lies at each location, where a location is the list of the
names that lead there from the root.  It has a working folder, from which
relative paths are seen.  A path is followed piece by piece.  Whatever a piece
is taken at has to be a folder, also where the piece is a dot, so `notes.md/`
leads nowhere if `notes.md` is a file.  Moves up are taken where they stand: a
path does not get past a folder that does not exist by leaving it again.

A file is written into a folder that exists; a file there is replaced, a
folder stands in the way.  A folder can be made with all the folders above it
that are missing; if one of them cannot be made, those above it are there all
the same.  Nothing else on the disk changes.
-/
import Compendium.Path.Canonical

namespace Compendium

/-- Why a document cannot be read. -/
inductive Fault where
  | missing (path : Path)
  | unreadable (path : Path)
  | notUtf8 (path : Path)
deriving DecidableEq

/-- What a fault tells the user.  Where the system gives a reason, it follows the text. -/
def Fault.message : Fault → Text
  | .missing p => "Source file does not exist: ".toList ++ p.text
  | .unreadable p => "Failed to read ".toList ++ p.text ++ ": ".toList
  | .notUtf8 p => "Source file is not valid UTF-8: ".toList ++ p.text

/-- Access to documents. -/
structure Store where
  has : Path → Bool
  read : Path → Except Fault Text

/-- Documents kept by their canonical paths, at most one under each. -/
structure Library where
  entries : List (Path × Text)
  distinct : (entries.map Prod.fst).Nodup

namespace Library

def empty : Library := ⟨[], .nil⟩

def size (lib : Library) : Nat := lib.entries.length

def get? (lib : Library) (p : Path) : Option Text :=
  (lib.entries.find? (·.1 = p.canonical)).map Prod.snd

def erase (lib : Library) (p : Path) : Library where
  entries := lib.entries.filter (·.1 ≠ p.canonical)
  distinct := lib.distinct.sublist (List.filter_sublist.map _)

def insert (lib : Library) (p : Path) (t : Text) : Library where
  entries := (p.canonical, t) :: (lib.erase p).entries
  distinct := by
    refine List.nodup_cons.mpr ⟨fun h => ?_, (lib.erase p).distinct⟩
    obtain ⟨e, he, hp⟩ := List.mem_map.mp h
    simpa [hp] using (List.mem_filter.mp he).2

/-- The library of some documents; of two with one path the later one counts. -/
def ofList (docs : List (Path × Text)) : Library :=
  docs.foldl (fun lib (p, t) => lib.insert p t) empty

def store (lib : Library) : Store where
  has p := (lib.get? p).isSome
  read p :=
    match lib.get? p with
    | some t => .ok t
    | none => .error (.missing p)

end Library

/-! ## Disks -/

/-- The names that lead from the root to a place. -/
abbrev Location := List Text

def Path.ofLocation (l : Location) : Path := ⟨'/' :: List.intercalate ['/'] l⟩

/-- What is in a file: a text, or bytes that are not one. -/
inductive Content where
  | text (t : Text)
  | binary (bytes : List UInt8)
deriving DecidableEq

def Content.ofBytes (bytes : List UInt8) : Content :=
  match String.fromUTF8? ⟨bytes.toArray⟩ with
  | some s => .text s.toList
  | none => .binary bytes

def Content.bytes : Content → List UInt8
  | .text t => (String.ofList t).toUTF8.toList
  | .binary bytes => bytes

/-- What lies at a location. -/
inductive Item where
  | file (content : Content)
  | folder
deriving DecidableEq

/-- Files and folders by their locations, and the working folder. -/
structure Disk where
  workingFolder : Location
  items : List (Location × Item)

/-- Why a path leads nowhere. -/
inductive Trouble where
  /-- Something on the way does not exist. -/
  | absent
  /-- Something on the way is not a folder, or the path cannot be used at all. -/
  | barred
deriving DecidableEq

namespace Disk

/-- What lies at a location.  The root and the folders down to the working folder always exist. -/
def item? (d : Disk) (l : Location) : Option Item :=
  if l.isPrefixOf d.workingFolder then some .folder
  else (d.items.find? (·.1 = l)).map Prod.snd

/-- The disk with an item at a location, in the place of the one there. -/
def set (d : Disk) (l : Location) (i : Item) : Disk :=
  { d with items := (l, i) :: d.items.filter (·.1 ≠ l) }

/-- The longest name that a file can have, in bytes. -/
def maxName : Nat := 255

/-- The longest path that can be followed, in bytes. -/
def maxPath : Nat := 4095

/-- Follows pieces of a path from a location. -/
def follow (d : Disk) : Location → List Text → Except Trouble Location
  | l, [] => .ok l
  | l, piece :: rest =>
    match d.item? l with
    | none => .error .absent
    | some (.file _) => .error .barred
    | some .folder =>
      if Path.isIdle piece then d.follow l rest
      else if piece = ['.', '.'] then d.follow l.dropLast rest
      else if maxName < Text.size piece then .error .barred
      else d.follow (l ++ [piece]) rest

/-- Where a path begins, and the pieces that it goes on with. -/
def start (d : Disk) (p : Path) : Location × List Text :=
  match p.text with
  | '/' :: t => ([], t.splitOn '/')
  | t => (d.workingFolder, t.splitOn '/')

/-- Whether a text can be a path at all. -/
def isUsable (p : Path) : Bool := !p.text.contains '\x00' && Text.size p.text ≤ maxPath

/-- The location that a path leads to; there may be nothing there. -/
def locate (d : Disk) (p : Path) : Except Trouble Location :=
  if p.isEmpty then .error .absent
  else if isUsable p then d.follow (d.start p).1 (d.start p).2
  else .error .barred

/-- What a path leads to. -/
def find (d : Disk) (p : Path) : Except Trouble Item :=
  match d.locate p with
  | .error e => .error e
  | .ok l =>
    match d.item? l with
    | some i => .ok i
    | none => .error .absent

def isFile (d : Disk) (p : Path) : Bool :=
  match d.find p with
  | .ok (.file _) => true
  | _ => false

def isFolder (d : Disk) (p : Path) : Bool :=
  match d.find p with
  | .ok .folder => true
  | _ => false

def holds (d : Disk) (p : Path) : Bool :=
  match d.find p with
  | .ok _ => true
  | .error _ => false

def read (d : Disk) (p : Path) : Except Fault Text :=
  match d.find p with
  | .ok (.file (.text t)) => .ok t
  | .ok (.file (.binary _)) => .error (.notUtf8 p)
  | .ok .folder => .error (.unreadable p)
  | .error .absent => .error (.missing p)
  | .error .barred => .error (.unreadable p)

def store (d : Disk) : Store := ⟨d.isFile, d.read⟩

def workingPath (d : Disk) : Path := .ofLocation d.workingFolder

/-! ## New files and folders -/

/-- The folder in which the last piece of a path is to be made, and that piece. -/
def target (d : Disk) (p : Path) : Except Trouble (Location × Text) :=
  if p.isEmpty then .error .absent
  else if isUsable p then
    let (l, pieces) := d.start p
    match d.follow l pieces.dropLast with
    | .error e => .error e
    | .ok folder =>
      match d.item? folder with
      | none => .error .absent
      | some (.file _) => .error .barred
      | some .folder =>
        let name := pieces.getLast?.getD []
        if maxName < Text.size name then .error .barred else .ok (folder, name)
  else .error .barred

/-- Whether a piece of a path can be the name of something new. -/
def isName (piece : Text) : Bool := !Path.isIdle piece && piece != ['.', '.']

def write? (d : Disk) (p : Path) (t : Text) : Option Disk :=
  match d.target p with
  | .error _ => none
  | .ok (folder, name) =>
    if isName name then
      match d.item? (folder ++ [name]) with
      | some .folder => none
      | _ => some (d.set (folder ++ [name]) (.file (.text t)))
    else none

/-- Makes a folder.  What is there already bars it. -/
def makeFolder (d : Disk) (p : Path) : Except Trouble Disk :=
  match d.target p with
  | .error e => .error e
  | .ok (folder, name) =>
    if isName name then
      match d.item? (folder ++ [name]) with
      | some _ => .error .barred
      | none => .ok (d.set (folder ++ [name]) .folder)
    else .error .barred

/-- Tries to make a folder and those above it that are missing, going up at most `most` times.  Says
whether the folder is there then.  Where it is not, the folders above it that could be made stay. -/
def tryFolders (d : Disk) : Nat → Path → Bool × Disk
  | 0, _ => (false, d)
  | most + 1, p =>
    if p.isEmpty then (true, d)
    else
      match d.makeFolder p with
      | .ok d' => (true, d')
      | .error .barred => (d.isFolder p, d)
      | .error .absent =>
        match p.parent? with
        | none => (false, d)
        | some above =>
          match d.tryFolders most above with
          | (false, d') => (false, d')
          | (true, d') =>
            match d'.makeFolder p with
            | .ok d'' => (true, d'')
            | .error _ => (d'.isFolder p, d')

/-- The disk after an attempt to make a folder and those above it, whether or not it succeeded. -/
def withFolders (d : Disk) (p : Path) : Disk := (d.tryFolders (p.text.length + 1) p).2

/-- The disk with a folder and those above it that were missing, if all of them can be made. -/
def makeFolders? (d : Disk) (p : Path) : Option Disk :=
  if (d.tryFolders (p.text.length + 1) p).1 then some (d.withFolders p) else none

/-- The files that are new or different, seen from an earlier state of the disk. -/
def changesSince (d before : Disk) : List (Location × Content) :=
  d.items.filterMap fun (l, i) =>
    match i with
    | .file c => if before.item? l = some (.file c) then none else some (l, c)
    | .folder => none

/-- The folders that are new, seen from an earlier state of the disk, in the order they were made. -/
def foldersSince (d before : Disk) : List Location :=
  (d.items.filterMap fun (l, i) =>
    if i = .folder ∧ before.item? l = none then some l else none).reverse

end Disk

end Compendium
