import ApiWorkflow.Main
import ApiWorkflow.Proofs.Text.Utf8
import ApiWorkflow.Proofs.Text.Runs
import ApiWorkflow.Proofs.File.Uri
import ApiWorkflow.Proofs.File.Key
import ApiWorkflow.Proofs.File.RoundTrip
import ApiWorkflow.Proofs.File.Path
import ApiWorkflow.Proofs.Expression
import ApiWorkflow.Proofs.Check.Pass
import ApiWorkflow.Proofs.Check.Severity
import ApiWorkflow.Proofs.Check.Acceptance
import ApiWorkflow.Proofs.Fields
import ApiWorkflow.Proofs.Operation.Index
import ApiWorkflow.Proofs.Description.Discovery
import ApiWorkflow.Proofs.Catalog.Reading
import ApiWorkflow.Proofs.Catalog.Run
import ApiWorkflow.Proofs.Catalog.Ownership
import ApiWorkflow.Proofs.Catalog.Completeness
import ApiWorkflow.Proofs.Catalog.Transparency
import ApiWorkflow.Proofs.Catalog.Build
import ApiWorkflow.Proofs.Session.Spelling
import ApiWorkflow.Proofs.File.Parts
import ApiWorkflow.Proofs.File.Walk
import ApiWorkflow.Proofs.Text.Lenient
import ApiWorkflow.Proofs.Description.Search
import ApiWorkflow.Proofs.Description.Listing
import ApiWorkflow.Proofs.Description.Detour
import ApiWorkflow.Proofs.Document.Positions
import ApiWorkflow.Proofs.Session.Diagnostics
import ApiWorkflow.Proofs.File.Difference
import ApiWorkflow.Proofs.Command.Verdict
import ApiWorkflow.Proofs.Json.Leaf
import ApiWorkflow.Proofs.Json.Text
import ApiWorkflow.Proofs.Json.Number
import ApiWorkflow.Proofs.Json.Tree
import ApiWorkflow.Proofs.Source.Codec
import ApiWorkflow.Proofs.Source.Record
import ApiWorkflow.Proofs.Document.RoundTrip
import ApiWorkflow.Proofs.Document.Text
import ApiWorkflow.Proofs.Yaml.Block
import ApiWorkflow.Proofs.Yaml.Indentation
import ApiWorkflow.Proofs.Document.Outline
import ApiWorkflow.Proofs.Document.OwnLines
import ApiWorkflow.Proofs.History
import ApiWorkflow.Proofs.Operation.History
import ApiWorkflow.Proofs.Description.History
import ApiWorkflow.Proofs.Catalog.Rebuild
import ApiWorkflow.Proofs.Command.Lookup
import ApiWorkflow.Proofs.Catalog.Failure
import ApiWorkflow.Proofs.Session.Saving
import ApiWorkflow.Proofs.Catalog.Effect
import ApiWorkflow.Proofs.Catalog.Report
import ApiWorkflow.Proofs.Places
import ApiWorkflow.Proofs.Expression.Occurrences
import ApiWorkflow.Proofs.Check.Duplicates
import ApiWorkflow.Proofs.Check.Padding
import ApiWorkflow.Proofs.Description.DeclaredLine
import ApiWorkflow.Proofs.Document.Declarations
import ApiWorkflow.Proofs.Session.Location
import ApiWorkflow.Proofs.Session.Definition
import ApiWorkflow.Proofs.File.Escape
import ApiWorkflow.Proofs.Session.Kinds
import ApiWorkflow.Proofs.Description.Marker
import ApiWorkflow.Proofs.Operation.Declaration
import ApiWorkflow.Proofs.Description.Extension
import ApiWorkflow.Proofs.Settings.Override
