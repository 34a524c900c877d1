import JsonnetNav.Answers.Definition
import JsonnetNav.Answers.Error
import JsonnetNav.Answers.Fold
import JsonnetNav.Answers.Hint
import JsonnetNav.Answers.Occurrence
import JsonnetNav.Answers.Symbol
import JsonnetNav.Ast.Arguments
import JsonnetNav.Ast.Basic
import JsonnetNav.Ast.Build
import JsonnetNav.Ast.BuildError
import JsonnetNav.Ast.Equality
import JsonnetNav.Ast.Node
import JsonnetNav.Ast.Printer
import JsonnetNav.Ast.Site
import JsonnetNav.Ast.Tails
import JsonnetNav.Commands
import JsonnetNav.Definition.FieldScope
import JsonnetNav.Definition.Finder
import JsonnetNav.Definition.Search
import JsonnetNav.Document
import JsonnetNav.Files.Glob
import JsonnetNav.Files.Listing
import JsonnetNav.Files.Path
import JsonnetNav.Files.Tree
import JsonnetNav.Main
import JsonnetNav.Number.Binary64
import JsonnetNav.Number.Decimal
import JsonnetNav.Number.Shortest
import JsonnetNav.Outline
import JsonnetNav.ParseTree.Basic
import JsonnetNav.ParseTree.Cursor
import JsonnetNav.ParseTree.Listing
import JsonnetNav.Position
import JsonnetNav.Proofs.AssertChains
import JsonnetNav.Proofs.AssertedSlots
import JsonnetNav.Proofs.BalancedHints
import JsonnetNav.Proofs.BoundOnce
import JsonnetNav.Proofs.CallersInTurn
import JsonnetNav.Proofs.CollectedCalls
import JsonnetNav.Proofs.Comments
import JsonnetNav.Proofs.ConnectedDocuments
import JsonnetNav.Proofs.DefinitionEnds
import JsonnetNav.Proofs.DocumentIndex
import JsonnetNav.Proofs.FieldReferences
import JsonnetNav.Proofs.FittingParts
import JsonnetNav.Proofs.FoldedContainers
import JsonnetNav.Proofs.FoundInside
import JsonnetNav.Proofs.GivenArguments
import JsonnetNav.Proofs.HonestTables
import JsonnetNav.Proofs.ImportGraph
import JsonnetNav.Proofs.Importers
import JsonnetNav.Proofs.InnermostObjects
import JsonnetNav.Proofs.Listings
import JsonnetNav.Proofs.LiveDefinitions
import JsonnetNav.Proofs.LoadedWorkspaces
import JsonnetNav.Proofs.LocalGroups
import JsonnetNav.Proofs.MirroredSearches
import JsonnetNav.Proofs.NamedRanges
import JsonnetNav.Proofs.NarrowestNodes
import JsonnetNav.Proofs.NeededCalls
import JsonnetNav.Proofs.NestedRanges
import JsonnetNav.Proofs.NestedTrees
import JsonnetNav.Proofs.ObjectSums
import JsonnetNav.Proofs.Occurrences
import JsonnetNav.Proofs.PrintedTrees
import JsonnetNav.Proofs.ReadRanges
import JsonnetNav.Proofs.ReadyServers
import JsonnetNav.Proofs.References
import JsonnetNav.Proofs.RelatedSearches
import JsonnetNav.Proofs.Reload
import JsonnetNav.Proofs.RenameRequests
import JsonnetNav.Proofs.RenamedBindings
import JsonnetNav.Proofs.RenamedParameters
import JsonnetNav.Proofs.RenamedSearches
import JsonnetNav.Proofs.RenamedSites
import JsonnetNav.Proofs.RenamedTrees
import JsonnetNav.Proofs.Renaming
import JsonnetNav.Proofs.RepeatedReferences
import JsonnetNav.Proofs.Rereading
import JsonnetNav.Proofs.Resolution
import JsonnetNav.Proofs.ScannedPaths
import JsonnetNav.Proofs.ScopeEnvironments
import JsonnetNav.Proofs.ScopeTrees
import JsonnetNav.Proofs.ScopeViews
import JsonnetNav.Proofs.ServerStarts
import JsonnetNav.Proofs.SharedCalls
import JsonnetNav.Proofs.Sites
import JsonnetNav.Proofs.StoreRuns
import JsonnetNav.Proofs.StringLiterals
import JsonnetNav.Proofs.SymbolForests
import JsonnetNav.Proofs.SymbolRanges
import JsonnetNav.Proofs.TailPositions
import JsonnetNav.Proofs.TransitiveImporters
import JsonnetNav.Proofs.WatchedFiles
import JsonnetNav.Proofs.WellFormedScopes
import JsonnetNav.Scope.History
import JsonnetNav.Scope.Printer
import JsonnetNav.Scope.Record
import JsonnetNav.Scope.Resolution
import JsonnetNav.Scope.Table
import JsonnetNav.Server.Basic
import JsonnetNav.Server.Requests
import JsonnetNav.Server.Session
import JsonnetNav.Server.Start
import JsonnetNav.Store.Basic
import JsonnetNav.Store.Config
import JsonnetNav.Store.ImportGraph
import JsonnetNav.Store.Scan
import JsonnetNav.Store.Update
import JsonnetNav.Text.Basic
import JsonnetNav.Text.Dedent
import JsonnetNav.Text.Digit
import JsonnetNav.Text.Escape
import JsonnetNav.Text.Literal
import JsonnetNav.Text.Quoted
import JsonnetNav.Walk
