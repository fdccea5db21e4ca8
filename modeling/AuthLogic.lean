import AuthLogic.Assertion
import AuthLogic.Catalogue
import AuthLogic.Claim
import AuthLogic.Config.Basic
import AuthLogic.Config.Range
import AuthLogic.Constraint
import AuthLogic.Entity
import AuthLogic.Fact
import AuthLogic.Failure
import AuthLogic.Function.Evaluation
import AuthLogic.Function.Hour
import AuthLogic.Function.Registry
import AuthLogic.Json.Basic
import AuthLogic.Json.Decode
import AuthLogic.Json.Encode
import AuthLogic.Obligation
import AuthLogic.Policy
import AuthLogic.Proofs.Assertion.Consequence
import AuthLogic.Proofs.Assertion.Construction
import AuthLogic.Proofs.Assertion.Copies
import AuthLogic.Proofs.Assertion.Expansion
import AuthLogic.Proofs.Assertion.FreeVariables
import AuthLogic.Proofs.Assertion.Height
import AuthLogic.Proofs.Assertion.Keys
import AuthLogic.Proofs.Assertion.Readable
import AuthLogic.Proofs.Assertion.Roundtrip
import AuthLogic.Proofs.Assertion.Scoping
import AuthLogic.Proofs.Assertion.Speakers
import AuthLogic.Proofs.Config.Overrides
import AuthLogic.Proofs.Constraint.Height
import AuthLogic.Proofs.Constraint.Plain
import AuthLogic.Proofs.Constraint.Roundtrip
import AuthLogic.Proofs.Fact.Roundtrip
import AuthLogic.Proofs.Function.Arguments
import AuthLogic.Proofs.Function.Calls
import AuthLogic.Proofs.Function.Comparison
import AuthLogic.Proofs.Function.Equality
import AuthLogic.Proofs.Function.PostOrder
import AuthLogic.Proofs.Function.Registration
import AuthLogic.Proofs.Function.Strictness
import AuthLogic.Proofs.Json.Reading
import AuthLogic.Proofs.Json.Rewording
import AuthLogic.Proofs.Lookup
import AuthLogic.Proofs.Policy.Concatenation
import AuthLogic.Proofs.Policy.Partition
import AuthLogic.Proofs.Policy.Session
import AuthLogic.Proofs.Safety.Confinement
import AuthLogic.Proofs.Safety.Instantiation
import AuthLogic.Proofs.Substitution.Equations
import AuthLogic.Proofs.Substitution.SolvedForm
import AuthLogic.Proofs.Substitution.Succession
import AuthLogic.Proofs.Substitution.Union
import AuthLogic.Proofs.Substitution.Walks
import AuthLogic.Proofs.Syntax.Balance
import AuthLogic.Proofs.Syntax.ConstraintReading
import AuthLogic.Proofs.Syntax.Derivability
import AuthLogic.Proofs.Syntax.Derivation
import AuthLogic.Proofs.Syntax.DerivationParsed
import AuthLogic.Proofs.Syntax.DerivationReading
import AuthLogic.Proofs.Syntax.ErrorPosition
import AuthLogic.Proofs.Syntax.FactReading
import AuthLogic.Proofs.Syntax.Legibility
import AuthLogic.Proofs.Syntax.Levels
import AuthLogic.Proofs.Syntax.Location
import AuthLogic.Proofs.Syntax.Misreading
import AuthLogic.Proofs.Syntax.Parsed
import AuthLogic.Proofs.Syntax.Periods
import AuthLogic.Proofs.Syntax.PolicyReading
import AuthLogic.Proofs.Syntax.Reading
import AuthLogic.Proofs.Syntax.Seams
import AuthLogic.Proofs.Syntax.Spelling
import AuthLogic.Proofs.Syntax.Threshold
import AuthLogic.Proofs.Syntax.Tiling
import AuthLogic.Proofs.Syntax.Unambiguity
import AuthLogic.Proofs.Syntax.Viability
import AuthLogic.Proofs.Syntax.WhereClause
import AuthLogic.Proofs.Term.Bare
import AuthLogic.Proofs.Term.Ground
import AuthLogic.Proofs.Term.Occurrence
import AuthLogic.Proofs.Term.Stamping
import AuthLogic.Proofs.Unification.Bindings
import AuthLogic.Proofs.Unification.Classes
import AuthLogic.Proofs.Unification.Composition
import AuthLogic.Proofs.Unification.Matching
import AuthLogic.Proofs.Unification.MostGeneral
import AuthLogic.Proofs.Unification.Places
import AuthLogic.Proofs.Unification.Problem
import AuthLogic.Proofs.Unification.Renaming
import AuthLogic.Proofs.Unification.Soundness
import AuthLogic.Proofs.Unification.Succession
import AuthLogic.Proofs.Unification.Symmetry
import AuthLogic.Safety
import AuthLogic.Scope
import AuthLogic.Substitution
import AuthLogic.Syntax.Error
import AuthLogic.Syntax.Grammar
import AuthLogic.Syntax.Lexeme
import AuthLogic.Syntax.Token
import AuthLogic.Term
import AuthLogic.Text.Blank
import AuthLogic.Text.Numeral
import AuthLogic.Toml.Basic
import AuthLogic.Toml.Number
import AuthLogic.Toml.Reader
import AuthLogic.Unification
