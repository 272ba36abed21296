import ContentImport.ByteSize
import ContentImport.Calendar
import ContentImport.CommandLine
import ContentImport.CommandLine.Arguments
import ContentImport.Config
import ContentImport.Distinct
import ContentImport.Graph
import ContentImport.Graph.Indexed
import ContentImport.Graph.Opening
import ContentImport.Graph.Scanned
import ContentImport.Hierarchy
import ContentImport.Hierarchy.Closure
import ContentImport.Hierarchy.Memo
import ContentImport.Import
import ContentImport.ImportError
import ContentImport.ImportSource
import ContentImport.Iri
import ContentImport.Iri.Grammar
import ContentImport.Json.Printer
import ContentImport.Json.Record
import ContentImport.Json.Token
import ContentImport.Json.Value
import ContentImport.Json.Written
import ContentImport.Main
import ContentImport.Mapping.Fields
import ContentImport.Mapping.Nodes
import ContentImport.Mapping.Source
import ContentImport.Mapping.Vocabularies
import ContentImport.Markup.Attribute
import ContentImport.Markup.Event
import ContentImport.Markup.Reference
import ContentImport.Markup.Scope
import ContentImport.Markup.Token
import ContentImport.Number.Binary64
import ContentImport.Ontology.Annotation
import ContentImport.Ontology.Element
import ContentImport.Ontology.FieldProperty
import ContentImport.Ontology.Names
import ContentImport.Ontology.Reading
import ContentImport.Ontology.Term
import ContentImport.PathName
import ContentImport.Proofs.Attempt
import ContentImport.Proofs.Calendar
import ContentImport.Proofs.Graph.Agreement
import ContentImport.Proofs.Graph.Unread
import ContentImport.Proofs.Hierarchy.Memo
import ContentImport.Proofs.Hierarchy.Order
import ContentImport.Proofs.Hierarchy.Subclass
import ContentImport.Proofs.Hierarchy.Walk
import ContentImport.Proofs.Import.Acceptance
import ContentImport.Proofs.Import.Dump
import ContentImport.Proofs.Import.Duplicates
import ContentImport.Proofs.Import.FieldNames
import ContentImport.Proofs.Import.MixedReferences
import ContentImport.Proofs.Import.Overwriting
import ContentImport.Proofs.Import.ParentReferences
import ContentImport.Proofs.Import.Parents
import ContentImport.Proofs.Import.Phases
import ContentImport.Proofs.Import.References
import ContentImport.Proofs.Import.Repetition
import ContentImport.Proofs.Import.Replay
import ContentImport.Proofs.Import.Rollback
import ContentImport.Proofs.Import.StoredFields
import ContentImport.Proofs.Import.Succession
import ContentImport.Proofs.Import.TagReferences
import ContentImport.Proofs.Import.Unmodelled
import ContentImport.Proofs.Import.Vocabularies
import ContentImport.Proofs.Iri.Components
import ContentImport.Proofs.Iri.LocalName
import ContentImport.Proofs.Iri.Resolution
import ContentImport.Proofs.Json.Meaning
import ContentImport.Proofs.Json.Printed
import ContentImport.Proofs.Json.Tree
import ContentImport.Proofs.Mapping.ContentType
import ContentImport.Proofs.Mapping.DanglingReference
import ContentImport.Proofs.Mapping.Division
import ContentImport.Proofs.Mapping.EntityValue
import ContentImport.Proofs.Mapping.FilePath
import ContentImport.Proofs.Mapping.Mapped
import ContentImport.Proofs.Mapping.Messages
import ContentImport.Proofs.Mapping.ParentNames
import ContentImport.Proofs.Mapping.Parts
import ContentImport.Proofs.Mapping.ReferenceKinds
import ContentImport.Proofs.Mapping.TreeLinks
import ContentImport.Proofs.Mapping.Unread
import ContentImport.Proofs.Markup.Content
import ContentImport.Proofs.Markup.EntityText
import ContentImport.Proofs.Markup.InternalSubset
import ContentImport.Proofs.Markup.Passage
import ContentImport.Proofs.Markup.Replacement
import ContentImport.Proofs.Markup.TextContent
import ContentImport.Proofs.Markup.Tree
import ContentImport.Proofs.Ontology.Account
import ContentImport.Proofs.Ontology.Children
import ContentImport.Proofs.Ontology.DeclaredEntities
import ContentImport.Proofs.Ontology.Description
import ContentImport.Proofs.Ontology.FieldLookup
import ContentImport.Proofs.Ontology.FieldText
import ContentImport.Proofs.Ontology.InlineDatatype
import ContentImport.Proofs.Ontology.Merge
import ContentImport.Proofs.Ontology.Nested
import ContentImport.Proofs.Ontology.Notices
import ContentImport.Proofs.Ontology.RelativeReference
import ContentImport.Proofs.Ontology.Run
import ContentImport.Proofs.Ontology.Stand
import ContentImport.Proofs.Ontology.TextLiteral
import ContentImport.Proofs.Ontology.Truncation
import ContentImport.Proofs.Ontology.ValueOrder
import ContentImport.Proofs.Ontology.XmlLiteral
import ContentImport.Proofs.Record.Documents
import ContentImport.Proofs.Record.Reread
import ContentImport.Proofs.Store.Alike
import ContentImport.Proofs.Store.Creation
import ContentImport.Proofs.Store.Edit
import ContentImport.Proofs.Store.FieldMap
import ContentImport.Proofs.Store.Growth
import ContentImport.Proofs.Store.Identity
import ContentImport.Proofs.Store.Journal
import ContentImport.Proofs.Store.Operation
import ContentImport.Proofs.Store.Outlasting
import ContentImport.Proofs.Store.Outline
import ContentImport.Proofs.Store.Outside
import ContentImport.Proofs.Store.Reference
import ContentImport.Proofs.Store.Refusal
import ContentImport.Proofs.Store.Renamed
import ContentImport.Proofs.Store.Renaming
import ContentImport.Proofs.Store.SetFields
import ContentImport.Proofs.Store.Vocabulary
import ContentImport.Proofs.Store.WellFormed
import ContentImport.Proofs.Table
import ContentImport.Proofs.Text.Decoding
import ContentImport.Proofs.Text.Trimming
import ContentImport.Record
import ContentImport.Record.Document
import ContentImport.Record.Encoding
import ContentImport.Settings
import ContentImport.SourceFile
import ContentImport.Store
import ContentImport.Store.Import
import ContentImport.Store.Ledger
import ContentImport.Store.Repository
import ContentImport.Table
import ContentImport.Text.Blank
import ContentImport.Text.Digit
import ContentImport.Text.Utf8
import ContentImport.Text.WordChar
import ContentImport.Warnings
import ContentImport.Yaml.Glyph
import ContentImport.Yaml.Node
import ContentImport.Yaml.Record
import ContentImport.Yaml.Scalar
import ContentImport.Yaml.Token
