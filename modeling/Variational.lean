import Variational.Compiler
import Variational.Proofs.ExactScalar
import Variational.Proofs.MonomialMeaning
import Variational.Proofs.PushForward
import Variational.Proofs.Planning
import Variational.Proofs.Resolution
import Variational.Proofs.ProductMeaning
import Variational.Proofs.ReferenceValues
import Variational.Proofs.Contraction
import Variational.Proofs.FormShape
import Variational.Proofs.DofNumbering
import Variational.Proofs.DofPartition
import Variational.Proofs.CodeMeaning
import Variational.Proofs.JacobiRecurrence
import Variational.Proofs.RecurrenceCode
import Variational.Proofs.ExpansionCode
import Variational.Proofs.BasisCode
import Variational.Proofs.CacheTransparency
import Variational.Proofs.Composition
import Variational.Proofs.FamilyNames
import Variational.Proofs.NestedRestriction
import Variational.Proofs.Signatures
import Variational.Proofs.FormElements
import Variational.Proofs.SharedClasses
import Variational.Proofs.ValueBlocks
import Variational.Proofs.ElementShapes
import Variational.Proofs.EnrichedMaps
import Variational.Proofs.IntegerCode
import Variational.Proofs.GlobalNumbering
import Variational.Proofs.SingleCell
import Variational.Proofs.RegionRules
import Variational.Proofs.ExpansionTables
import Variational.Proofs.ExpansionShapes
import Variational.Proofs.SafeResolution
import Variational.Proofs.TableShapes
import Variational.Proofs.PlanBounds
import Variational.Proofs.CheckedTerms
import Variational.Proofs.CheckedBuild
import Variational.Proofs.StackedNumbering
import Variational.Proofs.CompositeNumbering
import Variational.Proofs.NodeLabels
import Variational.Proofs.ClassNames
import Variational.Proofs.GeometrySymbols
import Variational.Proofs.TensorNames
import Variational.Proofs.DeclaredNames
import Variational.Proofs.NamedCells
import Variational.Proofs.NodePaths
import Variational.Proofs.SumFlattening
import Variational.Proofs.Initializers
import Variational.Proofs.ReferenceTables
import Variational.Proofs.CellEntities
import Variational.Proofs.FormAddition
import Variational.Proofs.DualBasis
import Variational.Proofs.CellPolynomials
import Variational.Proofs.CellIntegrals
import Variational.Proofs.ExactRules
import Variational.Proofs.ExactRegions
import Variational.Proofs.ExpansionPolynomials
import Variational.Proofs.TabulatedPolynomials
import Variational.Proofs.ExactEntries
import Variational.Proofs.JacobiSeries
import Variational.Proofs.JacobiOrthogonality
import Variational.Proofs.ExpansionDerivatives
import Variational.Proofs.ExpansionOrthogonality
import Variational.Proofs.ExactProducts
import Variational.Proofs.LatticeInterior
import Variational.Proofs.LagrangeNodes
import Variational.Proofs.LatticeShapes
import Variational.Proofs.RegularSystems
import Variational.Proofs.PolynomialSpaces
import Variational.Proofs.LagrangeElements
import Variational.Proofs.EmbeddedExpansions
import Variational.Proofs.EnrichedExpansions
import Variational.Proofs.DerivativeMatrices
import Variational.Proofs.FieldCode
import Variational.Proofs.CellMapCode
import Variational.Proofs.CellFacets
import Variational.Proofs.FacetClosure
import Variational.Proofs.FacetRegions
import Variational.Proofs.FacetIncidence
import Variational.Proofs.FacetScaling
import Variational.Proofs.CanonicalPolynomials
import Variational.Proofs.ExpressionGrammar
import Variational.Proofs.ExpressionTokens
import Variational.Proofs.ExpressionText
import Variational.Proofs.PrintedNumbers
import Variational.Proofs.PolynomialText
import Variational.Proofs.Bracketings
import Variational.Proofs.MathMode
import Variational.Proofs.EntryLabels
import Variational.Proofs.FloatSigns
import Variational.Proofs.AdjacentNumbers
import Variational.Proofs.LinearCombinations
import Variational.Proofs.RowMajor
import Variational.Proofs.JacobiDerivatives
import Variational.Proofs.FloatValues
import Variational.Proofs.NearestDecimals
import Variational.Proofs.NumberLiterals
import Variational.Proofs.NestedExpansions
