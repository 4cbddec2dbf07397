import SchemaGraph.CommandLine.FileSystem
import SchemaGraph.Main
import SchemaGraph.Proofs.AttributeUnion
import SchemaGraph.Proofs.GroupReplacement
import SchemaGraph.Proofs.GroupStarts
import SchemaGraph.Proofs.Images
import SchemaGraph.Proofs.MarkerAudit
import SchemaGraph.Proofs.CollapsedIntersections
import SchemaGraph.Proofs.DraftHistory
import SchemaGraph.Proofs.SubstitutionSafety
import SchemaGraph.Proofs.IdentityDrift
import SchemaGraph.Proofs.Ingestion
import SchemaGraph.Proofs.Recollection
import SchemaGraph.Proofs.Sharing
import SchemaGraph.Proofs.Unfolding
import SchemaGraph.Proofs.Digraph.Components
import SchemaGraph.Proofs.DeclarationOrder
import SchemaGraph.Proofs.ShapeReference
import SchemaGraph.Proofs.NormalForm
import SchemaGraph.Proofs.Rebuild.Numbering
import SchemaGraph.Proofs.Renumbering
import SchemaGraph.Proofs.KeyOrder
import SchemaGraph.Proofs.OrderOfSamples
import SchemaGraph.Proofs.InferredGraph
import SchemaGraph.Proofs.MergingByName
import SchemaGraph.Proofs.StoreWrites
import SchemaGraph.Proofs.Rebuild.Roots
import SchemaGraph.Proofs.RootsKept
import SchemaGraph.Proofs.CanonicalNodes
import SchemaGraph.Proofs.GroupOrder
import SchemaGraph.Proofs.MergeOrder
import SchemaGraph.Proofs.ArgumentOrder
import SchemaGraph.Proofs.Digraph.Orders
import SchemaGraph.Proofs.Digraph.Duality
import SchemaGraph.Proofs.RecursiveWalk
import SchemaGraph.Proofs.CheckedReads
import SchemaGraph.Proofs.Freezing
import SchemaGraph.Proofs.IndirectionChains
import SchemaGraph.Proofs.AttributeMonoid
import SchemaGraph.Proofs.StringSummary
import SchemaGraph.Proofs.ShapePlaces
import SchemaGraph.Proofs.NodeFormat
import SchemaGraph.Proofs.Snapshots
import SchemaGraph.Proofs.TypeNames
import SchemaGraph.Proofs.MixedStrings
