import Equational.Dag
import Equational.Encoding.Limits
import Equational.Encoding.Term
import Equational.Proofs.AC.Irredundance
import Equational.Proofs.Application
import Equational.Proofs.CanonicalShape
import Equational.Proofs.Composition
import Equational.Proofs.Dag.Sharing
import Equational.Proofs.Dag.Traversal
import Equational.Proofs.Diophantine.Words
import Equational.Proofs.Encoding.Limits
import Equational.Proofs.Encoding.Term
import Equational.Proofs.ExpAC.Budget
import Equational.Proofs.ExpAC.Combination
import Equational.Proofs.ExpAC.Completeness
import Equational.Proofs.ExpAC.CycleSearch
import Equational.Proofs.ExpAC.Exhaustiveness
import Equational.Proofs.ExpAC.Failures
import Equational.Proofs.ExpAC.Identities
import Equational.Proofs.ExpAC.Syntactic
import Equational.Proofs.FreshNames
import Equational.Proofs.Interner.Numbering
import Equational.Proofs.Matching.Completeness
import Equational.Proofs.Problem.History
import Equational.Proofs.Rewriting.Duplicates
import Equational.Proofs.Rewriting.NormalForm
import Equational.Proofs.Rewriting.Renaming
import Equational.Proofs.Rewriting.Soundness
import Equational.Proofs.Rewriting.Variables
import Equational.Proofs.Term.EquationalLogic
import Equational.Proofs.Term.Hash
import Equational.Proofs.Term.Variables
import Equational.Proofs.Theory.Boolean
import Equational.Proofs.Theory.Field.Value
import Equational.Proofs.Theory.Idempotence
import Equational.Proofs.Unification.Answers
import Equational.Proofs.Unification.Constrained
import Equational.Proofs.Unification.FreshNames
import Equational.Proofs.Unification.Limits
import Equational.Proofs.Unification.MostGeneral
import Equational.Proofs.Unification.Recursion
import Equational.Proofs.Unification.SolvedForm
import Equational.Proofs.Unification.Triangular
import Equational.Rewriting.System
import Equational.Theory.Boolean
import Equational.Theory.Field
import Equational.Theory.Idempotence
import Equational.Unification.Modulo
