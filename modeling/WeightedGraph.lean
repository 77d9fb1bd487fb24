import WeightedGraph.Proofs.Checked.Graph
import WeightedGraph.Proofs.EdgeList.Refusal
import WeightedGraph.Proofs.Graph.Connectivity
import WeightedGraph.Proofs.IndexSet.Members
import WeightedGraph.Proofs.Search.HopPaths
import WeightedGraph.Proofs.Search.Partition
import WeightedGraph.Proofs.Search.RecursionDepth
import WeightedGraph.Proofs.ShortestPath.BinaryDistance
import WeightedGraph.Proofs.ShortestPath.Distance
import WeightedGraph.Proofs.SpanningForest.Spanning
import WeightedGraph.Proofs.SpanningForest.Total
import WeightedGraph.Proofs.SpanningForest.Uniqueness
import WeightedGraph.Proofs.Text.Renderings
import WeightedGraph.Proofs.UnionFind.Flattening
import WeightedGraph.Proofs.UnionFind.Heights
