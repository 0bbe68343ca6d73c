import DataContract.CommandLine.Directory
import DataContract.Main
import DataContract.Proofs.Model.Revivals
import DataContract.Proofs.Revival.Expansion
import DataContract.Proofs.Naming.Stability
import DataContract.Proofs.Naming.WireNames
import DataContract.Proofs.Naming.Cycles
import DataContract.Proofs.Naming.Siblings
import DataContract.Proofs.ValueType.Collapse
import DataContract.Proofs.Discovery.Foundation
import DataContract.Proofs.Discovery.Identity
import DataContract.Proofs.Model.Provenance
import DataContract.Proofs.Document.RoundTrip
import DataContract.Proofs.TypeExpr.Faults
import DataContract.Proofs.Revival.Recursion
import DataContract.Proofs.Operation.QueryString
import DataContract.Proofs.Catalog.BaseChain
import DataContract.Proofs.Model.Evaluation
import DataContract.Proofs.Operation.Composites
import DataContract.Proofs.Operation.RouteNames
import DataContract.Proofs.Discovery.Ceiling
import DataContract.Proofs.ValueType.Nesting
import DataContract.Proofs.Operation.TemplateLiterals
import DataContract.Proofs.Operation.SharedRoutes
import DataContract.Proofs.Naming.Identifiers
import DataContract.Proofs.Revival.AccessPaths
import DataContract.Proofs.Naming.PropertyChains
import DataContract.Proofs.Catalog.Instantiation
