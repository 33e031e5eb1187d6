import TemploTwig.Text.Word
import TemploTwig.Source.Group
import TemploTwig.Source.Span
import TemploTwig.Source.Segment
import TemploTwig.Source.Condition
import TemploTwig.Source.Partition
import TemploTwig.Source.TemplatePath
import TemploTwig.Directive.Basic
import TemploTwig.Directive.Attribute
import TemploTwig.Placeholder.MacroToken
import TemploTwig.Placeholder.Literal
import TemploTwig.Markup.Event
import TemploTwig.Markup.Document
import TemploTwig.Conversion.Template
import TemploTwig.Toml.Document
import TemploTwig.Files.FileSystem
import TemploTwig.Command.Run
import TemploTwig.Main
import TemploTwig.Proofs.Texts
import TemploTwig.Proofs.Scanning
import TemploTwig.Proofs.Joining
import TemploTwig.Proofs.SpanBody
import TemploTwig.Proofs.Groups
import TemploTwig.Proofs.Running
import TemploTwig.Proofs.OpenBlocks
import TemploTwig.Proofs.Template.Expression
import TemploTwig.Proofs.Directives.Grammar
import TemploTwig.Proofs.Template.Parts
import TemploTwig.Proofs.Template.Syntax
import TemploTwig.Proofs.Template.Cuts
import TemploTwig.Proofs.Nesting.Matching
import TemploTwig.Proofs.Nesting.Verdict
import TemploTwig.Proofs.Nesting.Document
import TemploTwig.Proofs.Nesting.Scopes
import TemploTwig.Proofs.Nesting.Emission
import TemploTwig.Proofs.Nesting.Guards
import TemploTwig.Proofs.Nesting.Definitions
import TemploTwig.Proofs.Nesting.Switches
import TemploTwig.Proofs.Nesting.SwitchTags
import TemploTwig.Proofs.Nesting.PrintedTags
import TemploTwig.Proofs.Lossless
import TemploTwig.Proofs.Depth
import TemploTwig.Proofs.Decomposition
import TemploTwig.Proofs.Markup.Attributes
import TemploTwig.Proofs.Markup.Canonical
import TemploTwig.Proofs.Markup.Tags
import TemploTwig.Proofs.Markup.TagPieces
import TemploTwig.Proofs.Markup.Segments
import TemploTwig.Proofs.Markup.Reading
import TemploTwig.Proofs.Markup.Building
import TemploTwig.Proofs.Markup.Passes
import TemploTwig.Proofs.Markup.RoundTrip
import TemploTwig.Proofs.Markup.Insertions
import TemploTwig.Proofs.Markup.Holders
import TemploTwig.Proofs.Markup.Drafts
import TemploTwig.Proofs.Markup.Held
import TemploTwig.Proofs.Markup.Placement
import TemploTwig.Proofs.Markup.Transcript
import TemploTwig.Proofs.Directives.Flags
import TemploTwig.Proofs.Markup.Padding
import TemploTwig.Proofs.Markup.Shown
import TemploTwig.Proofs.Placeholders.Marks
import TemploTwig.Proofs.Placeholders.Seams
import TemploTwig.Proofs.Placeholders.Pieces
import TemploTwig.Proofs.Placeholders.Spelling
import TemploTwig.Proofs.Placeholders.Outcomes
import TemploTwig.Proofs.Placeholders.Tracing
import TemploTwig.Proofs.Placeholders.Replacements
import TemploTwig.Proofs.Placeholders.Prepared
import TemploTwig.Proofs.Placeholders.Protection
import TemploTwig.Proofs.Placeholders.Readings
import TemploTwig.Proofs.Placeholders.Legible
import TemploTwig.Proofs.Markup.Fields
import TemploTwig.Proofs.Markup.Closed
import TemploTwig.Proofs.Placeholders.Flow
import TemploTwig.Proofs.Placeholders.Layout
import TemploTwig.Proofs.Placeholders.Recorded
import TemploTwig.Proofs.Placeholders.Stages
import TemploTwig.Proofs.Placeholders.Hidden
import TemploTwig.Proofs.Placeholders.Resolution
import TemploTwig.Proofs.Placeholders.Contents
import TemploTwig.Proofs.Placeholders.Spacing
import TemploTwig.Proofs.Placeholders.Printing
import TemploTwig.Proofs.Placeholders.Confined
import TemploTwig.Proofs.Placeholders.Unresolved
import TemploTwig.Proofs.Placeholders.Artifacts
import TemploTwig.Proofs.Template.Assembled
import TemploTwig.Proofs.Template.Calls
import TemploTwig.Proofs.Template.Inheritance
import TemploTwig.Proofs.Template.Placed
import TemploTwig.Proofs.Template.Imports
import TemploTwig.Proofs.Template.ImportOrder
import TemploTwig.Proofs.Conditions.Operators
import TemploTwig.Proofs.Conditions.Formula
import TemploTwig.Proofs.Conditions.NormalForm
import TemploTwig.Proofs.Conditions.Conjunction
import TemploTwig.Proofs.Conditions.Strings
import TemploTwig.Proofs.Files.Locations
import TemploTwig.Proofs.Settings.Loading
import TemploTwig.Proofs.Command.Batch
import TemploTwig.Proofs.Command.DryRun
import TemploTwig.Proofs.Command.Sources
import TemploTwig.Proofs.Command.Links
import TemploTwig.Proofs.Settings.References
import TemploTwig.Proofs.Nesting.MacroNames
import TemploTwig.Proofs.Placeholders.Lookup
import TemploTwig.Proofs.Reachable
import TemploTwig.Proofs.Template.Translation
import TemploTwig.Proofs.Placeholders.Tokens
