import Provision.Position
import Provision.Interval.Machine
import Provision.Pool.Delta
import Provision.Pool.Odometer
import Provision.Bound
import Provision.Taxonomy.Reader
import Provision.Monitor.Search
import Provision.Matching.Supply
import Provision.Support.Requirement
import Provision.Support.Saturation
import Provision.Support.Oracle
import Provision.Support.Cache
import Provision.Mapping.Reader
import Provision.Mapping.Survey
import Provision.Proofs.Matching.Exactness
import Provision.Proofs.Support.Instances
import Provision.Proofs.Support.Threshold
import Provision.Proofs.Mapping.Build
import Provision.Proofs.Mapping.RoundTrip
import Provision.Proofs.Matching.LeastSolution
import Provision.Proofs.Matching.Alignment
import Provision.Proofs.Matching.Bounds
import Provision.Proofs.Taxonomy.Subsumption
import Provision.Proofs.Taxonomy.Grammar
import Provision.Proofs.Pool.Sequence
import Provision.Proofs.Matching.Transcript
import Provision.Proofs.Mapping.Accepted
import Provision.Proofs.Taxonomy.File
import Provision.Proofs.Mapping.Directions
import Provision.Proofs.Bound.Ends
import Provision.Proofs.Matching.Fixpoint
import Provision.Proofs.Support.Additivity
import Provision.Proofs.Bound.Subtraction
import Provision.Proofs.Pool.Compositions
import Provision.Proofs.Support.Interior
import Provision.Proofs.Support.Requirement
import Provision.Proofs.Pool.Regrouping
import Provision.Proofs.Pool.Residual
import Provision.Proofs.Pool.Gathering
import Provision.Proofs.Taxonomy.Order
import Provision.Proofs.Mapping.Layout
import Provision.Proofs.Mapping.Accounting
import Provision.Proofs.Matching.Tally
import Provision.Proofs.Pool.Total
import Provision.Proofs.Interval.Halves
import Provision.Proofs.Matching.Audit
import Provision.Proofs.Matching.Log
