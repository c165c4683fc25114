import UniversalAlgebra.Algebra.Catalogue
import UniversalAlgebra.Algebra.Product
import UniversalAlgebra.Operation.Rule
import UniversalAlgebra.Proofs.Algebra.Product
import UniversalAlgebra.Proofs.BitSet.Programs
import UniversalAlgebra.Proofs.Catalogue.Counts
import UniversalAlgebra.Proofs.Catalogue.Divisors
import UniversalAlgebra.Proofs.Catalogue.Orders
import UniversalAlgebra.Proofs.Catalogue.Types
import UniversalAlgebra.Proofs.Centrality.Checks
import UniversalAlgebra.Proofs.Closure.Bounds
import UniversalAlgebra.Proofs.Closure.Generators
import UniversalAlgebra.Proofs.Closure.Invariants
import UniversalAlgebra.Proofs.Closure.Resumption
import UniversalAlgebra.Proofs.CongruenceLattice.Chains
import UniversalAlgebra.Proofs.CongruenceLattice.CommutatorLaws
import UniversalAlgebra.Proofs.CongruenceLattice.Commutators
import UniversalAlgebra.Proofs.CongruenceLattice.Decomposition
import UniversalAlgebra.Proofs.CongruenceLattice.Distributive
import UniversalAlgebra.Proofs.CongruenceLattice.History
import UniversalAlgebra.Proofs.CongruenceLattice.LowerCovers
import UniversalAlgebra.Proofs.CongruenceLattice.PrincipalChain
import UniversalAlgebra.Proofs.CongruenceLattice.Principals
import UniversalAlgebra.Proofs.ElementSet.Expressions
import UniversalAlgebra.Proofs.MeetIrreducibles
import UniversalAlgebra.Proofs.Memo.Callers
import UniversalAlgebra.Proofs.Operation.Positions
import UniversalAlgebra.Proofs.Operation.Symmetry
import UniversalAlgebra.Proofs.Partition.RankOrder
import UniversalAlgebra.Proofs.Partition.Text
import UniversalAlgebra.Proofs.Relation.Equivalences
import UniversalAlgebra.Proofs.Relation.Laws
import UniversalAlgebra.Proofs.SubalgebraLattice.Grounded
import UniversalAlgebra.Proofs.SubalgebraLattice.Joins
import UniversalAlgebra.Proofs.SubalgebraLattice.LowerCovers
import UniversalAlgebra.Proofs.SubalgebraLattice.Universe
import UniversalAlgebra.Proofs.Tuples.Odometer
import UniversalAlgebra.Proofs.TypeFinder.Refusals
import UniversalAlgebra.Proofs.TypeFinder.Uniform
import UniversalAlgebra.Proofs.WorkerPool.Interleavings
import UniversalAlgebra.SubalgebraLattice.Universe
import UniversalAlgebra.TypeFinder.Typing
import UniversalAlgebra.WorkerPool
