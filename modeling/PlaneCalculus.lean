import PlaneCalculus.Decimal.Shortest
import PlaneCalculus.Decimal.Layout
import PlaneCalculus.Double
import PlaneCalculus.Number.Basic
import PlaneCalculus.Number.Overflow
import PlaneCalculus.Expr.Basic
import PlaneCalculus.Expr.Order
import PlaneCalculus.Expr.Radical
import PlaneCalculus.Expr.SpecialValues
import PlaneCalculus.Expr.Fraction
import PlaneCalculus.Expr.Size
import PlaneCalculus.Expr.Canonical
import PlaneCalculus.Expr.Error
import PlaneCalculus.Expr.Outline
import PlaneCalculus.Expr.Latex
import PlaneCalculus.Expr.Evaluation
import PlaneCalculus.Expr.Substitution
import PlaneCalculus.Expr.Expansion
import PlaneCalculus.Formula.Tree
import PlaneCalculus.Formula.Parser
import PlaneCalculus.Formula.Meaning
import PlaneCalculus.Calculus.Derivative
import PlaneCalculus.Calculus.Antiderivative
import PlaneCalculus.Calculus.Singularity
import PlaneCalculus.Calculus.Quadrature
import PlaneCalculus.Calculus.Limit
import PlaneCalculus.Calculus.Recognition
import PlaneCalculus.Equations.Row
import PlaneCalculus.Equations.Elimination
import PlaneCalculus.Equations.Newton
import PlaneCalculus.Equations.Solution
import PlaneCalculus.Analysis.Gradient
import PlaneCalculus.Analysis.PointValue
import PlaneCalculus.Analysis.DoubleIntegral
import PlaneCalculus.Analysis.ConstrainedExtrema
import PlaneCalculus.Analysis.CriticalPoints
import PlaneCalculus.Analysis.Domain
import PlaneCalculus.Json.Basic
import PlaneCalculus.Json.Parser
import PlaneCalculus.Json.Printer
import PlaneCalculus.Text.Blank
import PlaneCalculus.Text.Search
import PlaneCalculus.Service.Settings
import PlaneCalculus.Service.Operation
import PlaneCalculus.Service.Validation
import PlaneCalculus.Service.Surface
import PlaneCalculus.Service.Report
import PlaneCalculus.Service.Report.Gradient
import PlaneCalculus.Service.Report.PointValue
import PlaneCalculus.Service.Report.DoubleIntegral
import PlaneCalculus.Service.Report.ConstrainedExtrema
import PlaneCalculus.Service.Report.CriticalPoints
import PlaneCalculus.Service.Report.Domain
import PlaneCalculus.Service.Request
import PlaneCalculus.Service.Http
import PlaneCalculus.Service.CommandLine
import PlaneCalculus.Main
import PlaneCalculus.Proofs.Calc.Meets
import PlaneCalculus.Proofs.Number.Exact
import PlaneCalculus.Proofs.Number.Sign
import PlaneCalculus.Proofs.Number.LowestTerms
import PlaneCalculus.Proofs.Expr.Size
import PlaneCalculus.Proofs.Expr.Termination
import PlaneCalculus.Proofs.Expr.Value
import PlaneCalculus.Proofs.Expr.Arithmetic
import PlaneCalculus.Proofs.Expr.Agreement
import PlaneCalculus.Proofs.Expr.CallDepth
import PlaneCalculus.Proofs.Expr.Kept
import PlaneCalculus.Proofs.Expr.Symbols
import PlaneCalculus.Proofs.Expr.RationalArithmetic
import PlaneCalculus.Proofs.Number.DualNumber
import PlaneCalculus.Proofs.Calculus.Derivative
import PlaneCalculus.Proofs.Formula.Grammar
import PlaneCalculus.Proofs.Formula.Tokens
import PlaneCalculus.Proofs.Formula.Soundness
import PlaneCalculus.Proofs.Formula.Completeness
import PlaneCalculus.Proofs.Formula.Meaning
import PlaneCalculus.Proofs.Expr.FactorOrder
import PlaneCalculus.Proofs.Expr.Nodes
import PlaneCalculus.Proofs.Expr.Settled
import PlaneCalculus.Proofs.Expr.NodeLaw
import PlaneCalculus.Proofs.Expr.Radical
import PlaneCalculus.Proofs.Expr.SettledPower
import PlaneCalculus.Proofs.Expr.Settling
import PlaneCalculus.Proofs.Expr.Rebuilding
import PlaneCalculus.Proofs.Expr.Shape
import PlaneCalculus.Proofs.Formula.Parts
import PlaneCalculus.Proofs.Formula.Nodes
import PlaneCalculus.Proofs.Formula.Canonical
import PlaneCalculus.Proofs.Formula.Value
import PlaneCalculus.Proofs.Formula.Writing
import PlaneCalculus.Proofs.Formula.Writable
import PlaneCalculus.Proofs.Formula.Printing
import PlaneCalculus.Proofs.Expr.Monomial
import PlaneCalculus.Proofs.Expr.Expansion
import PlaneCalculus.Proofs.Calculus.Attempt
import PlaneCalculus.Proofs.Calculus.Kept
import PlaneCalculus.Proofs.Calculus.NumberLeaves
import PlaneCalculus.Proofs.Calculus.PolynomialIntegral
import PlaneCalculus.Proofs.Calculus.UnendingIntegral
import PlaneCalculus.Proofs.Equations.Elimination
import PlaneCalculus.Proofs.Equations.Solution
import PlaneCalculus.Proofs.Expr.Substitution
import PlaneCalculus.Proofs.Calculus.FreeSymbols
import PlaneCalculus.Proofs.Analysis.PointValue
import PlaneCalculus.Proofs.Service.Identifiers
import PlaneCalculus.Proofs.Expr.MonomialTree
import PlaneCalculus.Proofs.Expr.TermOrder
import PlaneCalculus.Proofs.Expr.TermComparison
import PlaneCalculus.Proofs.Expr.MonomialProduct
import PlaneCalculus.Proofs.Expr.NormalForm
import PlaneCalculus.Proofs.Expr.LinearForm
import PlaneCalculus.Proofs.Expr.PowerForm
import PlaneCalculus.Proofs.Expr.Rearrangement
import PlaneCalculus.Proofs.Analysis.Denominator
import PlaneCalculus.Proofs.Expr.RingTree
import PlaneCalculus.Proofs.Calculus.NormalDerivative
import PlaneCalculus.Proofs.Calculus.ScaledSum
import PlaneCalculus.Proofs.Formula.Constraint
import PlaneCalculus.Proofs.Formula.Expanded
import PlaneCalculus.Proofs.Equations.LinearSystem
import PlaneCalculus.Proofs.Analysis.ConstrainedExtrema
import PlaneCalculus.Proofs.Formula.Difference
import PlaneCalculus.Proofs.Formula.Lexemes
import PlaneCalculus.Proofs.Service.Admission
import PlaneCalculus.Proofs.Service.Answers
import PlaneCalculus.Proofs.Latex.Fusion
import PlaneCalculus.Proofs.Expr.SquareRoot
import PlaneCalculus.Proofs.Expr.Collecting
import PlaneCalculus.Proofs.Expr.SoundTree
import PlaneCalculus.Proofs.Expr.PowerProduct
import PlaneCalculus.Proofs.Expr.PowerSum
import PlaneCalculus.Proofs.Calculus.SteadyIntegral
import PlaneCalculus.Proofs.Calculus.SoundRules
import PlaneCalculus.Proofs.Calculus.SoundIntegral
import PlaneCalculus.Proofs.Analysis.SignConditions
import PlaneCalculus.Proofs.Latex.Undefined
import PlaneCalculus.Proofs.Latex.Exact
import PlaneCalculus.Proofs.Number.ExactPower
import PlaneCalculus.Proofs.Expr.ReciprocalRoot
import PlaneCalculus.Proofs.Analysis.MixedDerivative
import PlaneCalculus.Proofs.Formula.ErrorPlace
import PlaneCalculus.Proofs.Calculus.IteratedIntegral
