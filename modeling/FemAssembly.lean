import FemAssembly.Distributed.Session
import FemAssembly.Element.H1
import FemAssembly.Message.Network
import FemAssembly.Restriction.Vectors
import FemAssembly.Stored.Forms
import FemAssembly.Structured.Nodes
import FemAssembly.Structured.Partition
import FemAssembly.Template.Stencil
import FemAssembly.Proofs.Restriction.Incidence
import FemAssembly.Proofs.Sparse.Unsorted
import FemAssembly.Proofs.Sparse.Sums
import FemAssembly.Proofs.Template.Lookup
import FemAssembly.Proofs.Assembly.Visits
import FemAssembly.Proofs.Assembly.Contribution
import FemAssembly.Proofs.Assembly.Passes
import FemAssembly.Proofs.Restriction.Transpose
import FemAssembly.Proofs.Assembly.Outcome
import FemAssembly.Proofs.Assembly.Entries
import FemAssembly.Proofs.Assembly.Correctness
import FemAssembly.Proofs.Assembly.ExactSum
import FemAssembly.Proofs.Assembly.Schedules
import FemAssembly.Proofs.Assembly.Failures
import FemAssembly.Proofs.Assembly.Operator
import FemAssembly.Proofs.Restriction.Adjoint
import FemAssembly.Proofs.Message.Determinacy
import FemAssembly.Proofs.Message.Solo
import FemAssembly.Proofs.Message.Collective
import FemAssembly.Proofs.Message.Rounds
import FemAssembly.Proofs.Message.Phases
import FemAssembly.Proofs.Message.Cells
import FemAssembly.Proofs.Message.Channels
import FemAssembly.Proofs.Message.Delivery
import FemAssembly.Proofs.Sparse.Triplets
import FemAssembly.Proofs.Sparse.Product
import FemAssembly.Proofs.Sparse.Table
import FemAssembly.Proofs.Distributed.Rows
import FemAssembly.Proofs.Distributed.Halo
import FemAssembly.Proofs.Distributed.Exchange
import FemAssembly.Proofs.Distributed.Matrix
import FemAssembly.Proofs.Distributed.Galerkin
import FemAssembly.Proofs.Distributed.Choice
import FemAssembly.Proofs.Assembly.Dirichlet
import FemAssembly.Proofs.Distributed.Dirichlet
import FemAssembly.Proofs.Distributed.Elimination
import FemAssembly.Proofs.Distributed.Repartition
import FemAssembly.Proofs.Distributed.Split
import FemAssembly.Proofs.Distributed.Vectors
import FemAssembly.Proofs.Distributed.Assembly
import FemAssembly.Proofs.Sequence.Merge
import FemAssembly.Proofs.Assembly.Election
import FemAssembly.Proofs.Assembly.Elimination
import FemAssembly.Proofs.Assembly.Independence
import FemAssembly.Proofs.Assembly.Orientation
import FemAssembly.Proofs.Assembly.Linearity
import FemAssembly.Proofs.Assembly.Essential
import FemAssembly.Proofs.Grid.Coordinates
import FemAssembly.Proofs.Grid.Sums
import FemAssembly.Proofs.Template.Stencil
import FemAssembly.Proofs.Template.Reflection
import FemAssembly.Proofs.Structured.Hypercube
import FemAssembly.Proofs.Structured.Sharing
import FemAssembly.Proofs.Structured.Interval
import FemAssembly.Proofs.Structured.Pattern
import FemAssembly.Proofs.Element.Dense
import FemAssembly.Proofs.Element.Values
import FemAssembly.Proofs.Element.Tabulated
import FemAssembly.Proofs.Element.Corners
import FemAssembly.Proofs.Element.Deposits
import FemAssembly.Proofs.Element.Slots
import FemAssembly.Proofs.Element.Cell
import FemAssembly.Proofs.Element.Scatter
import FemAssembly.Proofs.Element.H1
import FemAssembly.Proofs.Structured.Operator
import FemAssembly.Proofs.Structured.Consistency
import FemAssembly.Proofs.Distributed.Partition
import FemAssembly.Proofs.Distributed.Interval
import FemAssembly.Proofs.SignedIndex
import FemAssembly.Proofs.Binary64
import FemAssembly.Proofs.Message.Encoding
import FemAssembly.Proofs.Sparse.Storage
import FemAssembly.Proofs.Distributed.Identity
