import Goblin.Adjacency
import Goblin.AdmissibleBFlow
import Goblin.AttributeSizes
import Goblin.AttributeValues
import Goblin.BasicHeap
import Goblin.BellmanFord
import Goblin.BranchScheme
import Goblin.Components
import Goblin.CostScaling
import Goblin.DagSearch
import Goblin.DegreeCache
import Goblin.DenseGraphs
import Goblin.Dictionary
import Goblin.EdgeConnectivity
import Goblin.EdgeCover
import Goblin.EdgeCuts
import Goblin.FibonacciQueue
import Goblin.HeapQueue
import Goblin.ImplicitNetworks
import Goblin.IncidenceTuples
import Goblin.LayeredPhases
import Goblin.LayoutSwaps
import Goblin.LocalConnectivity
import Goblin.LpCertificates
import Goblin.MatchingWeights
import Goblin.MinCostSTFlow
import Goblin.MinTree
import Goblin.NestedBlocks
import Goblin.NodeIdentification
import Goblin.PredecessorLabels
import Goblin.PricingRules
import Goblin.SimplexIndex
import Goblin.StaticStack
import Goblin.StrongTree
import Goblin.SubgraphRoundTrip
import Goblin.UnknownTuples
import Goblin.Voronoi
