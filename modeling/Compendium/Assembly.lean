/-
# `Compendium.Assembly` — one document out of many

A document is assembled from its text in three moves: line endings and tabs
are made uniform, headings are restyled, and each include directive is
replaced by the assembled document that it names.  A directive whose document
is already open, or does not exist, is left out and reported as an omission.
Targets are seen from the folder of the root document, whichever document the
directive stands in.

The recursion goes from document to document, and nothing in a `Store` bounds
it, so `Store.assemble` is given a bound on the nesting; `Stop.tooDeep` says
that it did not suffice.  `Compendium.Assembly.Library` chooses a bound that
always does.

From the assembled root document the list of contents is made, and put in
place if that is asked for; then the markers are taken out.
-/
import Compendium.Contents
import Compendium.Embedding
import Compendium.Store

namespace Compendium

/-- Why a directive is left out. -/
inductive OmissionKind where
  | missing
  | cyclic
deriving DecidableEq

/-- A directive that is left out: why, in which document, and the path of its target. -/
structure Omission where
  kind : OmissionKind
  file : Path
  target : Path
deriving DecidableEq

def OmissionKind.name : OmissionKind → Text
  | .missing => "missing include".toList
  | .cyclic => "cyclic include".toList

/-- What an omission tells the user. -/
def Omission.message (o : Omission) : Text :=
  o.kind.name ++ ": ".toList ++ o.target.text ++ " (in ".toList ++ o.file.text ++ [')']

/-- How a document is assembled: `deeper` moves the headings of included documents one level down,
`contents` puts the list of contents in place and anchors every heading, and `root` is the root
folder. -/
structure Options where
  deeper : Bool
  contents : Bool
  root : Path
deriving DecidableEq

/-- An assembled document, its list of contents, and what was left out of it, in order. -/
structure Assembly where
  content : Text
  contents : Text
  omissions : List Omission
deriving DecidableEq

/-- Why there is no assembled document: the nesting has no bound that was allowed, or a document
cannot be read. -/
inductive Stop where
  | tooDeep
  | fault (f : Fault)
deriving DecidableEq

/-- The path of a target, seen from the folder `base`. -/
def Options.target (opts : Options) (base : Path) (d : Directive) : Path :=
  (base.join (.ofWritten opts.root d.target)).canonical

def Options.style (opts : Options) (included : Bool) : HeadingStyle :=
  ⟨included && opts.deeper, opts.contents⟩

/-- A document's text before its directives are replaced. -/
def Options.prepare (opts : Options) (included : Bool) (raw : Text) : Text :=
  (opts.style included).restyle (Text.uniform raw)

namespace Store

/-- Why a target is left out where `chain` is open, if it is. -/
def omission? (store : Store) (chain : Chain) (target : Path) : Option OmissionKind :=
  if chain.contains target then some .cyclic
  else if store.has target then none
  else some .missing

/-- What stands in the place of a directive of the document `file`: the document that it names as
`expand` gives it, or nothing, which `report` is then told. -/
def fill {σ : Type} (store : Store) (opts : Options) (base : Path)
    (report : Omission → Walk Stop σ Unit) (expand : Path → Walk Stop σ Text) (file : Path)
    (d : Directive) : Walk Stop σ (Option Text) := do
  let target := opts.target base d
  match store.omission? (← Walk.chain) target with
  | some kind =>
    report ⟨kind, file, target⟩
    return none
  | none => return some (← expand target)

/-- The assembled document at a path, where documents may be nested at most `depth` deep. -/
def expand (store : Store) (opts : Options) (base : Path) :
    Nat → Path → Walk Stop (List Omission) Text
  | 0, _ => .fail .tooDeep
  | depth + 1, path => do
    let chain ← Walk.chain
    match store.read path with
    | .error f => .fail (.fault f)
    | .ok raw =>
      embed (store.fill opts base Walk.record (store.expand opts base depth) path) path
        (opts.prepare (!chain.isEmpty) raw)

/-- The folder that targets are seen from, where `input` is the root document. -/
def baseFolder (input : Path) : Path := input.canonical.parent?.getD .empty

end Store

/-- The assembly whose root document has been assembled to a text. -/
def Options.finish (opts : Options) (text : Text) (omissions : List Omission) : Assembly :=
  let list := Contents.ofText text
  let placed := if opts.contents then Contents.place list text else text
  ⟨Marker.clear placed, list, omissions⟩

/-- Assembles the root document `input`, with documents nested at most `depth` deep. -/
def Store.assemble (store : Store) (opts : Options) (depth : Nat) (input : Path) :
    Except Stop Assembly :=
  match store.expand opts (baseFolder input) depth input.canonical .empty [] with
  | (.ok text, _, omissions) => .ok (opts.finish text omissions)
  | (.error e, _, _) => .error e

end Compendium
