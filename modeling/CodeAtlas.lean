import CodeAtlas.Cleanup
import CodeAtlas.CommandLine.Arguments
import CodeAtlas.CommandLine.Run
import CodeAtlas.Context
import CodeAtlas.Declaration.Basic
import CodeAtlas.Declaration.Resolution
import CodeAtlas.Declaration.Table
import CodeAtlas.Difference.Meaning
import CodeAtlas.Difference.Structure
import CodeAtlas.Graph.Basic
import CodeAtlas.Graph.Build
import CodeAtlas.Graph.Closure
import CodeAtlas.Graph.Node
import CodeAtlas.Graph.Progress
import CodeAtlas.Language
import CodeAtlas.Main
import CodeAtlas.Member
import CodeAtlas.Output.Encoding
import CodeAtlas.Output.JsonValue
import CodeAtlas.Patch.Fragment
import CodeAtlas.Patch.Merge
import CodeAtlas.Patch.Owner
import CodeAtlas.Patch.Proposal
import CodeAtlas.Problem
import CodeAtlas.Project.Directory
import CodeAtlas.Project.Glob
import CodeAtlas.Project.Ignore
import CodeAtlas.Project.Path
import CodeAtlas.Project.Sources
import CodeAtlas.Proofs.Cleanup.BlankRuns
import CodeAtlas.Proofs.Cleanup.Body
import CodeAtlas.Proofs.Cleanup.Deletion
import CodeAtlas.Proofs.Cleanup.Margin
import CodeAtlas.Proofs.Cleanup.Passes
import CodeAtlas.Proofs.Cleanup.Removal
import CodeAtlas.Proofs.Cleanup.Rounds
import CodeAtlas.Proofs.Cleanup.Separation
import CodeAtlas.Proofs.Cleanup.Strict
import CodeAtlas.Proofs.Cleanup.Unwrapping
import CodeAtlas.Proofs.Context.Grouping
import CodeAtlas.Proofs.Context.Sections
import CodeAtlas.Proofs.Context.Selection
import CodeAtlas.Proofs.Declaration.Ancestry
import CodeAtlas.Proofs.Declaration.Calls
import CodeAtlas.Proofs.Declaration.Entries
import CodeAtlas.Proofs.Declaration.FullNames
import CodeAtlas.Proofs.Declaration.Ids
import CodeAtlas.Proofs.Declaration.Membership
import CodeAtlas.Proofs.Declaration.Nodes
import CodeAtlas.Proofs.Declaration.Parts
import CodeAtlas.Proofs.Declaration.Resolution
import CodeAtlas.Proofs.Declaration.SimpleNames
import CodeAtlas.Proofs.Declaration.Sites
import CodeAtlas.Proofs.Difference.Duality
import CodeAtlas.Proofs.Difference.Identity
import CodeAtlas.Proofs.Difference.Lines
import CodeAtlas.Proofs.Difference.Pairing
import CodeAtlas.Proofs.Difference.Report
import CodeAtlas.Proofs.Difference.Unchanged
import CodeAtlas.Proofs.Graph.Declared
import CodeAtlas.Proofs.Graph.Dependencies
import CodeAtlas.Proofs.Graph.Enclosing
import CodeAtlas.Proofs.Graph.Granular
import CodeAtlas.Proofs.Graph.Implementations
import CodeAtlas.Proofs.Graph.Links
import CodeAtlas.Proofs.Graph.Listing
import CodeAtlas.Proofs.Graph.Namespaces
import CodeAtlas.Proofs.Graph.Paths
import CodeAtlas.Proofs.Graph.Search
import CodeAtlas.Proofs.Graph.Sites
import CodeAtlas.Proofs.Patch.Comments
import CodeAtlas.Proofs.Patch.Edit
import CodeAtlas.Proofs.Patch.Indentation
import CodeAtlas.Proofs.Patch.Matching
import CodeAtlas.Proofs.Patch.Merge
import CodeAtlas.Proofs.Patch.MethodOwner
import CodeAtlas.Proofs.Patch.Owner
import CodeAtlas.Proofs.Patch.RoundTrip
import CodeAtlas.Proofs.Patch.Site
import CodeAtlas.Proofs.Project.Path
import CodeAtlas.Proofs.Project.Spelling
import CodeAtlas.Proofs.Reference.Circles
import CodeAtlas.Proofs.Reference.Dependence
import CodeAtlas.Proofs.Reference.Granular
import CodeAtlas.Proofs.Reference.Links
import CodeAtlas.Proofs.Reference.Members
import CodeAtlas.Proofs.Reference.Scoping
import CodeAtlas.Proofs.Reference.Search
import CodeAtlas.Proofs.Reference.Steps
import CodeAtlas.Proofs.Reference.Trace
import CodeAtlas.Proofs.Reference.Walk
import CodeAtlas.Proofs.Scope.Chain
import CodeAtlas.Proofs.Scope.Forest
import CodeAtlas.Proofs.Session.Cache
import CodeAtlas.Proofs.Symbol.SimpleName
import CodeAtlas.Proofs.Symbol.TypeName
import CodeAtlas.Proofs.Symbol.TypeReference
import CodeAtlas.Proofs.Syntax.Content
import CodeAtlas.Proofs.Syntax.Digest
import CodeAtlas.Proofs.Syntax.Legible
import CodeAtlas.Proofs.Syntax.Members
import CodeAtlas.Proofs.Syntax.Renaming
import CodeAtlas.Proofs.Syntax.Skeleton
import CodeAtlas.Proofs.Syntax.WellFormed
import CodeAtlas.Proofs.Text.Edge
import CodeAtlas.Proofs.Text.Line
import CodeAtlas.Proofs.Text.Nesting
import CodeAtlas.Proofs.Text.Offset
import CodeAtlas.Proofs.Text.Row
import CodeAtlas.Proofs.Text.Segment
import CodeAtlas.Proofs.Text.Slice
import CodeAtlas.Proofs.Token.Alignment
import CodeAtlas.Proofs.Token.Leaves
import CodeAtlas.Proofs.Token.LengthTable
import CodeAtlas.Proofs.Token.Matching
import CodeAtlas.Proofs.Token.Ordinals
import CodeAtlas.Proofs.Token.Renaming
import CodeAtlas.Proofs.Token.Words
import CodeAtlas.Reference.Expression
import CodeAtlas.Reference.Role
import CodeAtlas.Reference.Walk
import CodeAtlas.Scope
import CodeAtlas.Session
import CodeAtlas.Settings.Basic
import CodeAtlas.Settings.Toml.Document
import CodeAtlas.Settings.Toml.Number
import CodeAtlas.Settings.Toml.Text
import CodeAtlas.Settings.Toml.Value
import CodeAtlas.Symbol.Kind
import CodeAtlas.Symbol.Signature
import CodeAtlas.Symbol.TypeName
import CodeAtlas.Syntax.Bank
import CodeAtlas.Syntax.Content
import CodeAtlas.Syntax.Tree
import CodeAtlas.Text.Blank
import CodeAtlas.Text.Distance
import CodeAtlas.Text.Line
import CodeAtlas.Text.Slice
import CodeAtlas.Text.Word
import CodeAtlas.Token.Alignment
import CodeAtlas.Token.Basic
