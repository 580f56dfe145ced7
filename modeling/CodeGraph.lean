import CodeGraph.CSharp.Body
import CodeGraph.CSharp.Code
import CodeGraph.CSharp.Cursor
import CodeGraph.CSharp.Declared
import CodeGraph.CSharp.Grammar.Declarations
import CodeGraph.CSharp.Grammar.Expressions
import CodeGraph.CSharp.Grammar.Names
import CodeGraph.CSharp.Grammar.Statements
import CodeGraph.CSharp.Lexeme
import CodeGraph.CSharp.Module
import CodeGraph.CSharp.OpenFiles
import CodeGraph.CSharp.Outline
import CodeGraph.CSharp.Target
import CodeGraph.CSharp.Token
import CodeGraph.CSharp.Viewpoint
import CodeGraph.CSharp.WrittenType
import CodeGraph.CommandLine.Arguments
import CodeGraph.CommandLine.Run
import CodeGraph.Config
import CodeGraph.Dict
import CodeGraph.Doc.Ids
import CodeGraph.Doc.Summary
import CodeGraph.Failure
import CodeGraph.FileTree
import CodeGraph.Graph.Channel
import CodeGraph.Graph.Collected
import CodeGraph.Graph.Dedup
import CodeGraph.Graph.Item
import CodeGraph.Graph.Locator
import CodeGraph.Ignored
import CodeGraph.Input
import CodeGraph.Json
import CodeGraph.Main
import CodeGraph.Metadata.Bytes
import CodeGraph.Metadata.Heap
import CodeGraph.Metadata.Image
import CodeGraph.Metadata.Instruction
import CodeGraph.Metadata.Member
import CodeGraph.Metadata.MethodBody
import CodeGraph.Metadata.Module
import CodeGraph.Metadata.OpenFile
import CodeGraph.Metadata.Pdb
import CodeGraph.Metadata.Reference
import CodeGraph.Metadata.Root
import CodeGraph.Metadata.Row
import CodeGraph.Metadata.RowRange
import CodeGraph.Metadata.Signature
import CodeGraph.Metadata.Table
import CodeGraph.Name.Brackets
import CodeGraph.Name.Canonical
import CodeGraph.Name.Display
import CodeGraph.OpenedModule
import CodeGraph.Parse
import CodeGraph.Path
import CodeGraph.Plan
import CodeGraph.Project
import CodeGraph.Proofs.CSharp.AlikeViews
import CodeGraph.Proofs.CSharp.BaseChains
import CodeGraph.Proofs.CSharp.BodyHandles
import CodeGraph.Proofs.CSharp.ByRef
import CodeGraph.Proofs.CSharp.Compiled
import CodeGraph.Proofs.CSharp.DeclarationTables
import CodeGraph.Proofs.CSharp.ExtensionCalls
import CodeGraph.Proofs.CSharp.OverloadChoice
import CodeGraph.Proofs.CSharp.Parts
import CodeGraph.Proofs.CSharp.Printing
import CodeGraph.Proofs.CSharp.Reading
import CodeGraph.Proofs.CSharp.Reordered
import CodeGraph.Proofs.CSharp.Resolved
import CodeGraph.Proofs.CSharp.Spelling
import CodeGraph.Proofs.CSharp.Steps
import CodeGraph.Proofs.CSharp.Trees
import CodeGraph.Proofs.CSharp.TypeHandles
import CodeGraph.Proofs.CSharp.Usings
import CodeGraph.Proofs.Files.Alike
import CodeGraph.Proofs.Files.Kept
import CodeGraph.Proofs.Files.Normalized
import CodeGraph.Proofs.Files.PathComponents
import CodeGraph.Proofs.Files.PathOrder
import CodeGraph.Proofs.Graph.Conserved
import CodeGraph.Proofs.Graph.Delivery
import CodeGraph.Proofs.Graph.Earliest
import CodeGraph.Proofs.Graph.Extremes
import CodeGraph.Proofs.Graph.InStep
import CodeGraph.Proofs.Graph.ItemJson
import CodeGraph.Proofs.Graph.Nearest
import CodeGraph.Proofs.Graph.Reordered
import CodeGraph.Proofs.Graph.Scope
import CodeGraph.Proofs.Graph.Tally
import CodeGraph.Proofs.Graph.Ties
import CodeGraph.Proofs.Metadata.Denotation
import CodeGraph.Proofs.Metadata.Indexes
import CodeGraph.Proofs.Metadata.NestedRows
import CodeGraph.Proofs.Metadata.RowOwners
import CodeGraph.Proofs.Metadata.SequencePoints
import CodeGraph.Proofs.Metadata.StreamLayout
import CodeGraph.Proofs.Metadata.Written
import CodeGraph.Proofs.Name.Accessors
import CodeGraph.Proofs.Name.Ancestors
import CodeGraph.Proofs.Name.Closing
import CodeGraph.Proofs.Name.Idempotent
import CodeGraph.Proofs.Name.Identifiers
import CodeGraph.Proofs.Name.MemberNames
import CodeGraph.Proofs.Name.Nested
import CodeGraph.Proofs.Name.Passes
import CodeGraph.Proofs.Name.Paths
import CodeGraph.Proofs.Name.Segments
import CodeGraph.Proofs.Name.Settled
import CodeGraph.Proofs.Name.Simple
import CodeGraph.Proofs.Name.Steady
import CodeGraph.Proofs.Name.TypeExpressions
import CodeGraph.Proofs.Name.TypeNames
import CodeGraph.Proofs.Parse.ConsistentViews
import CodeGraph.Proofs.Parse.FilesListed
import CodeGraph.Proofs.Parse.FilesRead
import CodeGraph.Proofs.Parse.FirstFound
import CodeGraph.Proofs.Parse.Identity
import CodeGraph.Proofs.Parse.Stopping
import CodeGraph.Proofs.Results
import CodeGraph.Proofs.SavedConfig
import CodeGraph.Proofs.Solution.FolderChains
import CodeGraph.Proofs.Solution.Parsed
import CodeGraph.Proofs.Solution.Planned
import CodeGraph.Proofs.Solution.ProjectReferences
import CodeGraph.Proofs.Solution.Written
import CodeGraph.Proofs.Symbol.Handles
import CodeGraph.Proofs.Symbol.Keys
import CodeGraph.Proofs.Symbol.NamedTypes
import CodeGraph.Proofs.Symbol.Overloads
import CodeGraph.Proofs.Text.Cuts
import CodeGraph.Proofs.Text.Fields
import CodeGraph.Proofs.Text.Json
import CodeGraph.Proofs.Text.Utf8
import CodeGraph.Proofs.Toml.Codecs
import CodeGraph.Proofs.Toml.Documents
import CodeGraph.Proofs.Toml.Quoted
import CodeGraph.Proofs.Toml.Values
import CodeGraph.Proofs.Walk.Asked
import CodeGraph.Proofs.Walk.Bodies
import CodeGraph.Proofs.Walk.Closure
import CodeGraph.Proofs.Walk.Descent
import CodeGraph.Proofs.Walk.ExternalChains
import CodeGraph.Proofs.Walk.Hierarchy
import CodeGraph.Proofs.Walk.Keeps
import CodeGraph.Proofs.Walk.LinkTargets
import CodeGraph.Proofs.Walk.LocalTargets
import CodeGraph.Proofs.Walk.MemberRun
import CodeGraph.Proofs.Walk.NamespaceNodes
import CodeGraph.Proofs.Walk.OnDemand
import CodeGraph.Proofs.Walk.Parents
import CodeGraph.Proofs.Walk.Schedules
import CodeGraph.Proofs.Walk.Scopes
import CodeGraph.Proofs.Walk.Scripts
import CodeGraph.Proofs.Walk.Sent
import CodeGraph.Proofs.Walk.TypeOrder
import CodeGraph.Proofs.Walk.TypeRun
import CodeGraph.Proofs.Walk.TypesOnce
import CodeGraph.Proofs.Walk.UniqueNames
import CodeGraph.RelevantFiles
import CodeGraph.Solution
import CodeGraph.SourceText
import CodeGraph.Summary
import CodeGraph.Symbol.Export
import CodeGraph.Symbol.Member
import CodeGraph.Symbol.ModuleView
import CodeGraph.Symbol.Scope
import CodeGraph.Symbol.TypeRef
import CodeGraph.Text.Basic
import CodeGraph.Text.Letters
import CodeGraph.Text.Ranges
import CodeGraph.Text.Utf8
import CodeGraph.Timestamp
import CodeGraph.Toml.Codec
import CodeGraph.Toml.Document
import CodeGraph.Toml.Lines
import CodeGraph.Toml.Number
import CodeGraph.Toml.Quoted
import CodeGraph.Toml.Reader
import CodeGraph.Toml.Value
import CodeGraph.Walk.Body
import CodeGraph.Walk.Context
import CodeGraph.Walk.Members
import CodeGraph.Walk.Modules
import CodeGraph.Walk.Sink
import CodeGraph.Walk.Types
import CodeGraph.Xml.Document
import CodeGraph.Xml.Reference
import CodeGraph.Xml.Token
