import FlowGraph.Graph.Reach
import FlowGraph.Graph.Digraph
import FlowGraph.Graph.Consistent
import FlowGraph.Module.Basic
import FlowGraph.Module.QualName
import FlowGraph.Proofs.Execution
import FlowGraph.Proofs.Liveness
import FlowGraph.Proofs.Edges
import FlowGraph.Proofs.Exits
import FlowGraph.Proofs.Order
import FlowGraph.Proofs.Scopes
import FlowGraph.Proofs.Calls
import FlowGraph.Proofs.Closure
import FlowGraph.Proofs.Cycles
import FlowGraph.Proofs.Numbering
import FlowGraph.Proofs.Isolation
import FlowGraph.Proofs.Shift
import FlowGraph.Proofs.Counting
import FlowGraph.Proofs.Homes
import FlowGraph.Proofs.Visible
import FlowGraph.Proofs.Nesting
import FlowGraph.Proofs.Acyclic
import FlowGraph.Proofs.Worklist
import FlowGraph.Proofs.LastAppend
import FlowGraph.Proofs.Stores
import FlowGraph.Proofs.Dialects
import FlowGraph.Proofs.Extension
import FlowGraph.Proofs.Export
import FlowGraph.Proofs.QualNames
import FlowGraph.Proofs.Headers
import FlowGraph.Proofs.Cursor
import FlowGraph.Proofs.Depth
