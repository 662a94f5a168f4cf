import Compendium.Assembly
import Compendium.Assembly.Library
import Compendium.Command.Run
import Compendium.CommandLine
import Compendium.Contents
import Compendium.Embedding
import Compendium.Heading
import Compendium.Json.Value
import Compendium.Main
import Compendium.Path.Basic
import Compendium.Path.Canonical
import Compendium.Settings.Basic
import Compendium.Settings.File
import Compendium.Store
import Compendium.Text.Basic
import Compendium.Text.Reader
import Compendium.Toml.Document
import Compendium.Toml.Value
import Compendium.Proofs.Assembly.ContentLines
import Compendium.Proofs.Assembly.Expansion
import Compendium.Proofs.Assembly.Finished
import Compendium.Proofs.Assembly.Headings
import Compendium.Proofs.Assembly.IncludeGraph
import Compendium.Proofs.Assembly.Independence
import Compendium.Proofs.Assembly.Lockstep
import Compendium.Proofs.Assembly.Nesting
import Compendium.Proofs.Assembly.Omissions
import Compendium.Proofs.Assembly.Prose
import Compendium.Proofs.Assembly.Rows
import Compendium.Proofs.Assembly.Spelling
import Compendium.Proofs.Assembly.Styles
import Compendium.Proofs.Assembly.Trace
import Compendium.Proofs.Command.Files
import Compendium.Proofs.Command.Settings
import Compendium.Proofs.Contents.Clearing
import Compendium.Proofs.Contents.Entry
import Compendium.Proofs.Contents.Marker
import Compendium.Proofs.Contents.Parts
import Compendium.Proofs.Contents.Placing
import Compendium.Proofs.Contents.Reading
import Compendium.Proofs.Directive
import Compendium.Proofs.Disk.Writing
import Compendium.Proofs.Draft.Between
import Compendium.Proofs.Draft.Paragraphs
import Compendium.Proofs.Draft.Pieces
import Compendium.Proofs.Draft.Reading
import Compendium.Proofs.Draft.Spacing
import Compendium.Proofs.Heading.Grammar
import Compendium.Proofs.Heading.Line
import Compendium.Proofs.Heading.Printing
import Compendium.Proofs.Heading.Reading
import Compendium.Proofs.Heading.Restyling
import Compendium.Proofs.Heading.Style
import Compendium.Proofs.Path.Joining
import Compendium.Proofs.Path.Leading
import Compendium.Proofs.Path.Normal
import Compendium.Proofs.Path.Root
import Compendium.Proofs.Settings.Files
import Compendium.Proofs.Settings.Value
import Compendium.Proofs.Text.Alike
import Compendium.Proofs.Text.Located
import Compendium.Proofs.Text.Pattern
import Compendium.Proofs.Text.Piled
import Compendium.Proofs.Text.Reading
import Compendium.Proofs.Text.Row
import Compendium.Proofs.Text.Tiling
import Compendium.Proofs.Text.Trim
import Compendium.Proofs.Text.Uniform
import Compendium.Proofs.Walk.Handling
import Compendium.Proofs.Walk.Steady
