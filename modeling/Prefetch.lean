import Prefetch.BlankText
import Prefetch.PrintableText
import Prefetch.QuotedText
import Prefetch.BracketSplit
import Prefetch.ChainToken
import Prefetch.RelationForest
import Prefetch.ForestOutline
import Prefetch.Expression
import Prefetch.ExpressionText
import Prefetch.ExpressionParser
import Prefetch.ExpressionCoverage
import Prefetch.OrderedIndex
import Prefetch.EntitySchema
import Prefetch.EntityCatalog
import Prefetch.DottedPath
import Prefetch.Diagnostic
import Prefetch.FetchPlan
import Prefetch.FetchPolicy
import Prefetch.LooseValue
import Prefetch.FieldFault
import Prefetch.FetchRequest
import Prefetch.PlanReader
import Prefetch.PlanExpansion
import Prefetch.Proofs.FallibleRuns
import Prefetch.Proofs.KeyedLists
import Prefetch.Proofs.CatalogWalks
import Prefetch.Proofs.ExpansionSteps
import Prefetch.Proofs.AdmittedPaths
import Prefetch.Proofs.PlanChains
import Prefetch.Proofs.CoveragePaths
import Prefetch.Proofs.CoveredPlans
import Prefetch.Proofs.TrimmedText
import Prefetch.Proofs.BracketDepths
import Prefetch.Proofs.ChainReading
import Prefetch.Proofs.BracketedTexts
import Prefetch.Proofs.ShieldedNames
import Prefetch.Proofs.TextRoundTrip
import Prefetch.Proofs.NestedBrackets
import Prefetch.Proofs.NestedNames
import Prefetch.Proofs.PaddedText
import Prefetch.Proofs.ExpressionGrammar
import Prefetch.Proofs.PairedBrackets
import Prefetch.Proofs.ReadingOutcome
import Prefetch.Proofs.DividedText
import Prefetch.Proofs.KnownEntities
import Prefetch.Proofs.SchemaOffences
import Prefetch.Proofs.PlacedRows
import Prefetch.Proofs.ExpansionTrace
import Prefetch.Proofs.ReplayOutcome
import Prefetch.Proofs.NodeBudget
import Prefetch.Proofs.UnknownNames
import Prefetch.Proofs.PlanRefusals
import Prefetch.Proofs.InnerExpansions
import Prefetch.Proofs.ReachedNodes
import Prefetch.Proofs.MissingPaths
import Prefetch.Proofs.DepthLimit
import Prefetch.Proofs.UnboundedParts
import Prefetch.Proofs.DeclarationOrder
import Prefetch.Proofs.DistinctSiblings
import Prefetch.Proofs.SiblingOrder
import Prefetch.Proofs.PathSegments
import Prefetch.Proofs.LeafChains
import Prefetch.Proofs.LeafPaths
import Prefetch.Proofs.ChainStacks
import Prefetch.Proofs.ComparisonRounds
import Prefetch.Proofs.ReadingRules
import Prefetch.Proofs.FaultPositions
import Prefetch.Proofs.PlanImages
import Prefetch.Proofs.LastSiblings
import Prefetch.Proofs.SchemaIndexes
