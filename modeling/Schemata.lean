import Schemata.Binding.Borrow
import Schemata.Binding.Circular
import Schemata.Binding.Inner
import Schemata.Binding.References
import Schemata.Binding.Wrappers
import Schemata.Choice.Alternatives
import Schemata.Choice.Compound
import Schemata.Choice.Substitutes
import Schemata.Command.Log
import Schemata.Command.Options
import Schemata.Command.Report
import Schemata.Command.Run
import Schemata.Config.Basic
import Schemata.Config.Reader
import Schemata.Content.Groups
import Schemata.Content.Markers
import Schemata.Content.Mixed
import Schemata.Content.Paths
import Schemata.Content.Repeated
import Schemata.Digraph.Basic
import Schemata.Digraph.Keyed
import Schemata.Digraph.Sort
import Schemata.Document.Codec
import Schemata.Document.Draft
import Schemata.Document.JsonSource
import Schemata.Document.Source
import Schemata.Document.Tree
import Schemata.Document.Types
import Schemata.Document.YamlSource
import Schemata.Inherit.Bases
import Schemata.Inherit.Overrides
import Schemata.Json.Reader
import Schemata.Json.Scan
import Schemata.Json.Value
import Schemata.Json.Writer
import Schemata.Lists.Groups
import Schemata.Lists.Positions
import Schemata.Main
import Schemata.Model.Facet
import Schemata.Model.Field
import Schemata.Model.Native
import Schemata.Model.Restrictions
import Schemata.Model.SchemaType
import Schemata.Model.Status
import Schemata.Model.Tag
import Schemata.Name.Key
import Schemata.Name.Location
import Schemata.Name.Namespace
import Schemata.Name.Nearest
import Schemata.Name.QName
import Schemata.Name.Uri
import Schemata.Name.Words
import Schemata.Output.Designation
import Schemata.Output.Imports
import Schemata.Output.Integrity
import Schemata.Output.Layout
import Schemata.Output.Parts
import Schemata.Output.Resolution
import Schemata.Pipeline.Analysis
import Schemata.Pipeline.Filtering
import Schemata.Pipeline.Stage
import Schemata.Pipeline.Validation
import Schemata.Proofs.Binding.Bound
import Schemata.Proofs.Binding.Circular
import Schemata.Proofs.Binding.Consumption
import Schemata.Proofs.Binding.Editing
import Schemata.Proofs.Binding.Ending
import Schemata.Proofs.Binding.Flattened
import Schemata.Proofs.Binding.InnerNames
import Schemata.Proofs.Binding.Passes
import Schemata.Proofs.Binding.Promoted
import Schemata.Proofs.Choice.Bounds
import Schemata.Proofs.Choice.Expansion
import Schemata.Proofs.Choice.Grouping
import Schemata.Proofs.Choice.Separation
import Schemata.Proofs.Choice.Shadowing
import Schemata.Proofs.Choice.Substitution
import Schemata.Proofs.Choice.Wrapping
import Schemata.Proofs.Content.Folding
import Schemata.Proofs.Content.Groups
import Schemata.Proofs.Content.Sequences
import Schemata.Proofs.Content.Widening
import Schemata.Proofs.Digraph.Additions
import Schemata.Proofs.Digraph.Components
import Schemata.Proofs.Digraph.Keyed
import Schemata.Proofs.Digraph.LowLinks
import Schemata.Proofs.Digraph.Order
import Schemata.Proofs.Document.Accepted
import Schemata.Proofs.Document.Reading
import Schemata.Proofs.Document.Rereading
import Schemata.Proofs.Document.RoundTrip
import Schemata.Proofs.Inherit.Ancestry
import Schemata.Proofs.Inherit.Circles
import Schemata.Proofs.Inherit.Flattening
import Schemata.Proofs.Inherit.Leads
import Schemata.Proofs.Inherit.Names
import Schemata.Proofs.Inherit.Orderly
import Schemata.Proofs.Inherit.Overrides
import Schemata.Proofs.Inherit.Settling
import Schemata.Proofs.Lists
import Schemata.Proofs.Model.Changes
import Schemata.Proofs.Model.Copies
import Schemata.Proofs.Model.Facets
import Schemata.Proofs.Model.Links
import Schemata.Proofs.Model.Trees
import Schemata.Proofs.Model.Updates
import Schemata.Proofs.Name.Nearest
import Schemata.Proofs.Name.Segments
import Schemata.Proofs.Output.Aliases
import Schemata.Proofs.Output.Clusters
import Schemata.Proofs.Output.Cycles
import Schemata.Proofs.Output.Designation
import Schemata.Proofs.Output.Files
import Schemata.Proofs.Output.Integrity
import Schemata.Proofs.Output.ModuleCircles
import Schemata.Proofs.Output.Modules
import Schemata.Proofs.Output.Resolution
import Schemata.Proofs.Pipeline.Definitions
import Schemata.Proofs.Pipeline.Endless
import Schemata.Proofs.Pipeline.Filtering
import Schemata.Proofs.Pipeline.Flattening
import Schemata.Proofs.Pipeline.OrderFree
import Schemata.Proofs.Pipeline.References
import Schemata.Proofs.Pipeline.Termination
import Schemata.Proofs.Pipeline.Validation
import Schemata.Proofs.Step.Coverage
import Schemata.Proofs.Step.Ends
import Schemata.Proofs.Step.Independent
import Schemata.Proofs.Step.Progress
import Schemata.Proofs.Step.Sequential
import Schemata.Proofs.Step.Upkeep
import Schemata.Proofs.Step.WeakestPre
import Schemata.Proofs.Store.History
import Schemata.Proofs.Store.Index
import Schemata.Proofs.Store.Outtakes
import Schemata.Proofs.Store.Sound
import Schemata.Proofs.Unique.FieldNames
import Schemata.Proofs.Unique.Relabelling
import Schemata.Proofs.Unique.Renames
import Schemata.Proofs.Unique.Scopes
import Schemata.Proofs.Value.Checks
import Schemata.Report.Diagnostic
import Schemata.Report.Failure
import Schemata.Step.Compile
import Schemata.Step.Engine
import Schemata.Step.Pass
import Schemata.Store.Basic
import Schemata.Store.Place
import Schemata.Text.Base64
import Schemata.Text.Case
import Schemata.Text.Cluster
import Schemata.Text.Double
import Schemata.Text.Graphic
import Schemata.Text.Letter
import Schemata.Text.Number
import Schemata.Text.Quoted
import Schemata.Text.Split
import Schemata.Text.Utf8
import Schemata.Text.Width
import Schemata.Unique.FieldNames
import Schemata.Unique.TypeNames
import Schemata.Value.Defaults
import Schemata.Value.Enumerations
import Schemata.Value.Lexical
import Schemata.Yaml.Cursor
import Schemata.Yaml.Meaning
import Schemata.Yaml.Node
import Schemata.Yaml.Reader
import Schemata.Yaml.Scalars
import Schemata.Yaml.Token
import Schemata.Yaml.Token.Stream
import Schemata.Yaml.Writer
