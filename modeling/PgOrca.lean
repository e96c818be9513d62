import PgOrca.DPHyper.OrderConstraints
import PgOrca.DPHyper.Termination
import PgOrca.JoinRegion.TableLaws
import PgOrca.JoinRegion.Fingerprint
import PgOrca.JoinRegion.Lateral
import PgOrca.JoinRegion.PredicateGraph
import PgOrca.JoinRegion.Skeleton
import PgOrca.Constraint.Qualifying
import PgOrca.Constraint.ScalarForm
import PgOrca.Constraint.PartitionPruning
import PgOrca.Constraint.Containment
import PgOrca.Logical.RowBounds
import PgOrca.Logical.DependencySoundness
import PgOrca.Memo.Deduplication
import PgOrca.Memo.Rehash
import PgOrca.Subquery.ThreeValued
import PgOrca.Preprocess.OuterReferences
import PgOrca.DSL.PolicySnapshot
import PgOrca.Rules.ExprList
import PgOrca.Rules.CrossProduct
import PgOrca.Rules.SemiJoinGrouping
import PgOrca.Physical.CTEScope
import PgOrca.Executor.DynScan
import PgOrca.Base.CTEInfo
import PgOrca.Base.HashMap
import PgOrca.DSL.ExpressionDefinitions
import PgOrca.Rules.MinMaxIndex
import PgOrca.Rules.Integrity
import PgOrca.Index.Candidates
