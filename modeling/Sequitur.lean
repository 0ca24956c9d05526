import Sequitur.Argument
import Sequitur.Canonical.Spelling
import Sequitur.Constant
import Sequitur.Context
import Sequitur.Derivation.Basic
import Sequitur.Derivation.Pass
import Sequitur.Derivation.Premises
import Sequitur.Derivation.Proof
import Sequitur.Derivation.Propositional
import Sequitur.Derivation.Quantifiers
import Sequitur.Derivation.Search
import Sequitur.Error
import Sequitur.Formula.Basic
import Sequitur.Formula.Build
import Sequitur.Formula.Canonical
import Sequitur.Formula.Kind
import Sequitur.Formula.Terms
import Sequitur.Formula.Text
import Sequitur.Proofs.Accounts
import Sequitur.Proofs.Agreement
import Sequitur.Proofs.Canonical.Equality
import Sequitur.Proofs.Canonical.Projection
import Sequitur.Proofs.Canonical.Readability
import Sequitur.Proofs.Canonical.Spellings
import Sequitur.Proofs.Derivation.Actions
import Sequitur.Proofs.Derivation.Applications
import Sequitur.Proofs.Derivation.Bounds
import Sequitur.Proofs.Derivation.Composition
import Sequitur.Proofs.Derivation.Cone
import Sequitur.Proofs.Derivation.Delivery
import Sequitur.Proofs.Derivation.Discipline
import Sequitur.Proofs.Derivation.Economy
import Sequitur.Proofs.Derivation.Extraction
import Sequitur.Proofs.Derivation.Fixpoint
import Sequitur.Proofs.Derivation.Freshness
import Sequitur.Proofs.Derivation.Goals
import Sequitur.Proofs.Derivation.Inheritance
import Sequitur.Proofs.Derivation.Instantiation
import Sequitur.Proofs.Derivation.LastPass
import Sequitur.Proofs.Derivation.Lines
import Sequitur.Proofs.Derivation.Moves
import Sequitur.Proofs.Derivation.Outcome
import Sequitur.Proofs.Derivation.Passes
import Sequitur.Proofs.Derivation.Premises
import Sequitur.Proofs.Derivation.Requests
import Sequitur.Proofs.Derivation.Rules
import Sequitur.Proofs.Derivation.Soundness
import Sequitur.Proofs.Derivation.States
import Sequitur.Proofs.Derivation.Termination
import Sequitur.Proofs.Derivation.Turns
import Sequitur.Proofs.Formula.Extent
import Sequitur.Proofs.Formula.Kinds
import Sequitur.Proofs.Formula.Size
import Sequitur.Proofs.Formula.Terms
import Sequitur.Proofs.Limits
import Sequitur.Proofs.Semantics.Denial
import Sequitur.Proofs.Semantics.Instances
import Sequitur.Proofs.Semantics.Interpretation
import Sequitur.Proofs.Semantics.Likeness
import Sequitur.Proofs.Semantics.Propositional
import Sequitur.Proofs.Semantics.Reading
import Sequitur.Proofs.Semantics.Sentence
import Sequitur.Proofs.Tableau.Ancestry
import Sequitur.Proofs.Tableau.Burden
import Sequitur.Proofs.Tableau.Capture
import Sequitur.Proofs.Tableau.Closing
import Sequitur.Proofs.Tableau.Completeness
import Sequitur.Proofs.Tableau.Decision
import Sequitur.Proofs.Tableau.Descent
import Sequitur.Proofs.Tableau.Dispatch
import Sequitur.Proofs.Tableau.Errors
import Sequitur.Proofs.Tableau.Grafting
import Sequitur.Proofs.Tableau.Growth
import Sequitur.Proofs.Tableau.Idleness
import Sequitur.Proofs.Tableau.Inheritance
import Sequitur.Proofs.Tableau.Path
import Sequitur.Proofs.Tableau.Placement
import Sequitur.Proofs.Tableau.Record
import Sequitur.Proofs.Tableau.Repetition
import Sequitur.Proofs.Tableau.Replacement
import Sequitur.Proofs.Tableau.Requeueing
import Sequitur.Proofs.Tableau.Room
import Sequitur.Proofs.Tableau.Rules
import Sequitur.Proofs.Tableau.Run
import Sequitur.Proofs.Tableau.Saturation
import Sequitur.Proofs.Tableau.Slots
import Sequitur.Proofs.Tableau.Soundness
import Sequitur.Proofs.Tableau.Stock
import Sequitur.Proofs.Tableau.Termination
import Sequitur.Proofs.Tableau.Traversals
import Sequitur.Proofs.Tableau.Tree
import Sequitur.Proofs.Tableau.Weight
import Sequitur.Proofs.Tableau.Wrappers
import Sequitur.Report
import Sequitur.Settings
import Sequitur.Step.Basic
import Sequitur.Step.Marks
import Sequitur.Symbols
import Sequitur.Tableau.Agenda
import Sequitur.Tableau.Basic
import Sequitur.Tableau.Closure
import Sequitur.Tableau.Decomposition
import Sequitur.Tableau.Dispatch
import Sequitur.Tableau.Expansion
import Sequitur.Tableau.Node
import Sequitur.Tableau.Run
import Sequitur.Tableau.Traversal
import Sequitur.Text.Characters
import Sequitur.Trace
