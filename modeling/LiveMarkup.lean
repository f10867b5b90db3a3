import LiveMarkup.Text.Word
import LiveMarkup.Text.Digit
import LiveMarkup.Text.Blank
import LiveMarkup.Json.Reader
import LiveMarkup.Json.Printer
import LiveMarkup.Placeholder.Scan
import LiveMarkup.Placeholder.Interpolation
import LiveMarkup.Placeholder.Expression
import LiveMarkup.Markup.Lexer
import LiveMarkup.Markup.Parser
import LiveMarkup.Document.Edit
import LiveMarkup.Document.Path
import LiveMarkup.Blueprint.Summary
import LiveMarkup.Blueprint.Compiler
import LiveMarkup.Session
import LiveMarkup.CommandLine.Run
import LiveMarkup.Main
import LiveMarkup.Proofs.Document.Shape
import LiveMarkup.Proofs.Document.Graft
import LiveMarkup.Proofs.Document.Codec
import LiveMarkup.Proofs.Document.Renaming
import LiveMarkup.Proofs.Document.Forest
import LiveMarkup.Proofs.Document.RoundTrip
import LiveMarkup.Proofs.Document.Links
import LiveMarkup.Proofs.Document.ShapeEdits
import LiveMarkup.Proofs.Document.Growth
import LiveMarkup.Proofs.Document.Within
import LiveMarkup.Proofs.Document.Lineage
import LiveMarkup.Proofs.Document.Linkage
import LiveMarkup.Proofs.Document.Ancestry
import LiveMarkup.Proofs.Markup.Escaping
import LiveMarkup.Proofs.Markup.Grammar
import LiveMarkup.Proofs.Markup.Lexing
import LiveMarkup.Proofs.Markup.Building
import LiveMarkup.Proofs.Markup.Builder
import LiveMarkup.Proofs.Markup.TokenGrammar
import LiveMarkup.Proofs.Markup.NormalTrees
import LiveMarkup.Proofs.Markup.BuiltDocument
import LiveMarkup.Proofs.Markup.Reading
import LiveMarkup.Proofs.Markup.RoundTrip
import LiveMarkup.Proofs.Markup.Measure
import LiveMarkup.Proofs.Markup.Conservation
import LiveMarkup.Proofs.Markup.Respelling
import LiveMarkup.Proofs.Markup.LineEnds
import LiveMarkup.Proofs.Markup.Outline
import LiveMarkup.Proofs.Markup.NormalForm
import LiveMarkup.Proofs.Markup.Spacing
import LiveMarkup.Proofs.Markup.TagPlaces
import LiveMarkup.Proofs.Markup.Pairing
import LiveMarkup.Proofs.Markup.Spans
import LiveMarkup.Proofs.Markup.Coverage
import LiveMarkup.Proofs.Markup.TokenStream
import LiveMarkup.Proofs.Markup.NulContent
import LiveMarkup.Proofs.Markup.RawElements
import LiveMarkup.Proofs.Placeholder.Matching
import LiveMarkup.Proofs.Placeholder.Restoring
import LiveMarkup.Proofs.Placeholder.Stemming
import LiveMarkup.Proofs.Placeholder.Numbering
import LiveMarkup.Proofs.Placeholder.PutBack
import LiveMarkup.Proofs.Blueprint.Part
import LiveMarkup.Proofs.Blueprint.Compiling
import LiveMarkup.Proofs.Blueprint.Sites
import LiveMarkup.Proofs.Blueprint.Places
import LiveMarkup.Proofs.Blueprint.Records
import LiveMarkup.Proofs.Blueprint.View
import LiveMarkup.Proofs.Blueprint.Closure
import LiveMarkup.Proofs.Blueprint.Occurrence
import LiveMarkup.Proofs.Blueprint.Indexing
import LiveMarkup.Proofs.Blueprint.Provenance
import LiveMarkup.Proofs.Blueprint.Sayable
import LiveMarkup.Proofs.Blueprint.Encoding
import LiveMarkup.Proofs.Blueprint.Relabelling
import LiveMarkup.Proofs.Blueprint.Walking
import LiveMarkup.Proofs.Blueprint.Lossless
import LiveMarkup.Proofs.Instance.Binding
import LiveMarkup.Proofs.Instance.Resolvable
import LiveMarkup.Proofs.Instance.Writing
import LiveMarkup.Proofs.Instance.Layout
import LiveMarkup.Proofs.Instance.Building
import LiveMarkup.Proofs.Instance.Coherence
import LiveMarkup.Proofs.Instance.Family
import LiveMarkup.Proofs.Instance.Failing
import LiveMarkup.Proofs.Instance.Renaming
import LiveMarkup.Proofs.Instance.Embedding
import LiveMarkup.Proofs.Template.Expansion
import LiveMarkup.Proofs.Template.Filling
import LiveMarkup.Proofs.Template.Marking
import LiveMarkup.Proofs.Template.Taking
import LiveMarkup.Proofs.Template.Rendering
import LiveMarkup.Proofs.Store.Ownership
import LiveMarkup.Proofs.Store.Steps
import LiveMarkup.Proofs.Store.Renewal
import LiveMarkup.Proofs.Store.Renamed
import LiveMarkup.Proofs.Store.Lockstep
import LiveMarkup.Proofs.Store.Installing
import LiveMarkup.Proofs.Store.Engine
import LiveMarkup.Proofs.Store.Acts
import LiveMarkup.Proofs.Store.Independence
import LiveMarkup.Proofs.Store.Soundness
import LiveMarkup.Proofs.Store.Batch
import LiveMarkup.Proofs.Store.Replacing
import LiveMarkup.Proofs.Store.Refusing
import LiveMarkup.Proofs.Store.Touching
import LiveMarkup.Proofs.Store.Extending
import LiveMarkup.Proofs.Store.Transitions
import LiveMarkup.Proofs.Store.PathStability
import LiveMarkup.Proofs.Picture.Inscription
import LiveMarkup.Proofs.Picture.Basic
import LiveMarkup.Proofs.Picture.Exchange
import LiveMarkup.Proofs.Picture.Abstraction
import LiveMarkup.Proofs.Picture.Run
import LiveMarkup.Proofs.Picture.Orders
import LiveMarkup.Proofs.Picture.FixedParts
import LiveMarkup.Proofs.Picture.Outlines
import LiveMarkup.Proofs.Picture.Repetition
import LiveMarkup.Proofs.Picture.Configuring
import LiveMarkup.Proofs.Store.PartialConfiguration
import LiveMarkup.Proofs.Instance.Reading
import LiveMarkup.Proofs.Picture.Members
import LiveMarkup.Proofs.Picture.Restriction
import LiveMarkup.Proofs.Picture.Extension
import LiveMarkup.Proofs.Store.HeldValues
import LiveMarkup.Proofs.Store.Scope
import LiveMarkup.Proofs.Picture.Showing
import LiveMarkup.Proofs.Picture.Deferral
import LiveMarkup.Proofs.Picture.Preset
import LiveMarkup.Proofs.Document.Copying
import LiveMarkup.Proofs.Document.Freeing
import LiveMarkup.Proofs.Document.Traversals
import LiveMarkup.Proofs.Document.Splicing
import LiveMarkup.Proofs.Placeholder.Rescanning
import LiveMarkup.Proofs.Placeholder.Splitting
import LiveMarkup.Proofs.Source.Context
