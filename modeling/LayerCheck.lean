import LayerCheck.Table
import LayerCheck.Expr.Basic
import LayerCheck.Expr.FreeVars
import LayerCheck.Expr.Fresh
import LayerCheck.Expr.Subst
import LayerCheck.Expr.Printer
import LayerCheck.Program.Command
import LayerCheck.Program.Block
import LayerCheck.Program.Basic
import LayerCheck.Program.Printer
import LayerCheck.Digraph.Basic
import LayerCheck.Digraph.Order
import LayerCheck.Digraph.Dominance
import LayerCheck.Digraph.Loop
import LayerCheck.Digraph.Reducible
import LayerCheck.Flow.Basic
import LayerCheck.Flow.Prune
import LayerCheck.Layer.Facts
import LayerCheck.Layer.Copies
import LayerCheck.Permission.Domain
import LayerCheck.Permission.Basic
import LayerCheck.Permission.Disjointness
import LayerCheck.Snapshot
import LayerCheck.Interference.Tracker
import LayerCheck.Interference.Checker
import LayerCheck.Interference.Dispatcher
import LayerCheck.Refinement
import LayerCheck.Json.Text
import LayerCheck.Json.Token
import LayerCheck.Options
import LayerCheck.LayerError
import LayerCheck.Setting
import LayerCheck.Plan
import LayerCheck.Aggregator
import LayerCheck.Contract
import LayerCheck.Sequential.Split
import LayerCheck.Sequential.Step
import LayerCheck.Sequential.Loop
import LayerCheck.Sequential.Branch
import LayerCheck.Sequential.Head
import LayerCheck.Sequential.Body
import LayerCheck.PendingAsync
import LayerCheck.Transform
import LayerCheck.Proofs.Table
import LayerCheck.Proofs.Aggregator
import LayerCheck.Proofs.Contract
import LayerCheck.Proofs.Lists
import LayerCheck.Proofs.Digraph.Trail
import LayerCheck.Proofs.Digraph.DomTree
import LayerCheck.Proofs.Digraph.DomRounds
import LayerCheck.Proofs.Digraph.DomWalk
import LayerCheck.Proofs.Digraph.Search
import LayerCheck.Proofs.Digraph.Order
import LayerCheck.Proofs.Digraph.Dominance
import LayerCheck.Proofs.Digraph.NaturalLoop
import LayerCheck.Proofs.Digraph.Loops
import LayerCheck.Proofs.Digraph.Circuits
import LayerCheck.Proofs.Digraph.Peeling
import LayerCheck.Proofs.Digraph.Retreating
import LayerCheck.Proofs.Digraph.Subdivision
import LayerCheck.Proofs.Digraph.Part
import LayerCheck.Proofs.Expr.Fresh
import LayerCheck.Proofs.Expr.Eval
import LayerCheck.Proofs.Expr.Subst
import LayerCheck.Proofs.Expr.Binders
import LayerCheck.Proofs.Expr.Occurrences
import LayerCheck.Proofs.Expr.Names
import LayerCheck.Proofs.Expr.Reading
import LayerCheck.Proofs.Expr.Old
import LayerCheck.Proofs.Program.Block
import LayerCheck.Proofs.Program.Exec
import LayerCheck.Proofs.Flow.Paths
import LayerCheck.Proofs.Flow.Dominance
import LayerCheck.Proofs.Flow.Loops
import LayerCheck.Proofs.Flow.Reducible
import LayerCheck.Proofs.Flow.NaturalLoops
import LayerCheck.Proofs.Flow.Orders
import LayerCheck.Proofs.Flow.Ways
import LayerCheck.Proofs.Program.Inline
import LayerCheck.Proofs.Permission.Collected
import LayerCheck.Proofs.Permission.Disjointness
import LayerCheck.Proofs.Permission.Insertion
import LayerCheck.Proofs.Refinement
import LayerCheck.Proofs.Progress
import LayerCheck.Proofs.Plan
import LayerCheck.Proofs.Sequential.Split
import LayerCheck.Proofs.Sequential.Chains
import LayerCheck.Proofs.Sequential.Base
import LayerCheck.Proofs.Sequential.Pieces
import LayerCheck.Proofs.Sequential.Loops
import LayerCheck.Proofs.Sequential.Body
import LayerCheck.Proofs.Sequential.Spliced
import LayerCheck.Proofs.Sequential.Repeated
import LayerCheck.Proofs.Sequential.Aggregation
import LayerCheck.Proofs.Sequential.Checks
import LayerCheck.Proofs.Sequential.Shape
import LayerCheck.Proofs.Sequential.Weave
import LayerCheck.Proofs.Sequential.Ways
import LayerCheck.Proofs.Sequential.Fragments
import LayerCheck.Proofs.Sequential.Begin
import LayerCheck.Proofs.Sequential.Account
import LayerCheck.Proofs.Sequential.Executions
import LayerCheck.Proofs.Interference.Coverage
import LayerCheck.Proofs.Sequential.Yields
import LayerCheck.Proofs.Interference.Dispatch
import LayerCheck.Proofs.Sequential.Stored
import LayerCheck.Proofs.Sequential.Moments
import LayerCheck.Proofs.Sequential.Stretches
import LayerCheck.Proofs.Sequential.MarkedCalls
import LayerCheck.Proofs.Frame
import LayerCheck.Proofs.Independence
import LayerCheck.Proofs.Lookups
import LayerCheck.Proofs.Interference.Trusted
import LayerCheck.Proofs.Linearization
import LayerCheck.Proofs.Flow.Repeated
import LayerCheck.Proofs.Flow.Pruning
import LayerCheck.Proofs.Sequential.Intact
import LayerCheck.Proofs.Interference.Calls
import LayerCheck.Proofs.Freshness
import LayerCheck.Proofs.Sequential.Entry
import LayerCheck.Proofs.Sequential.Components
