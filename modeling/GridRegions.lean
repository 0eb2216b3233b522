import GridRegions.Interval.Motion
import GridRegions.Interval.Selection
import GridRegions.Region.Points
import GridRegions.Box.Carve
import GridRegions.Box.Motion
import GridRegions.Box.Selection
import GridRegions.Walk
import GridRegions.Region.Algebra
import GridRegions.Region.Union
import GridRegions.Region.Motion
import GridRegions.Halo.Fragment
import GridRegions.Stored.Codec
import GridRegions.Proofs.Apart
import GridRegions.Proofs.Separation
import GridRegions.Proofs.Simplification
import GridRegions.Proofs.Exactness
import GridRegions.Proofs.Success
import GridRegions.Proofs.Motion
import GridRegions.Proofs.WellFormed
import GridRegions.Proofs.Cardinality
import GridRegions.Proofs.Corners
import GridRegions.Proofs.Images
import GridRegions.Proofs.Fragments
import GridRegions.Proofs.HaloCover
import GridRegions.Proofs.HaloWrap
import GridRegions.Proofs.Comparison
import GridRegions.Proofs.Reciprocity
import GridRegions.Proofs.RoundTrip
import GridRegions.Proofs.Promise
import GridRegions.Proofs.Counting
import GridRegions.Proofs.NormalForm
import GridRegions.Proofs.Enumeration
import GridRegions.Proofs.Canonical
import GridRegions.Proofs.Fusion
import GridRegions.Proofs.Adjacency
import GridRegions.Proofs.FusionSearch
import GridRegions.Proofs.Remainder
import GridRegions.Proofs.Carving
import GridRegions.Proofs.Difference
import GridRegions.Proofs.Peeling
import GridRegions.Proofs.Shares
import GridRegions.Proofs.Traversal
import GridRegions.Proofs.Positions
import GridRegions.Proofs.Moved
import GridRegions.Proofs.Spacing
import GridRegions.Proofs.HaloMoved
import GridRegions.Proofs.Resizing
import GridRegions.Proofs.Product
import GridRegions.Proofs.CornerPairs
import GridRegions.Proofs.Hulls
import GridRegions.Proofs.Gathering
import GridRegions.Proofs.Selections
import GridRegions.Proofs.Shifts
import GridRegions.Proofs.HaloFaults
import GridRegions.Proofs.Overflow
import GridRegions.Proofs.IntervalAlgebra
import GridRegions.Proofs.Tiling
import GridRegions.Region.Dispatch
import GridRegions.Proofs.Dispatch
