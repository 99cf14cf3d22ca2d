import RuleCoverage.Coverage.Report
import RuleCoverage.Predicate.Equality
import RuleCoverage.Proofs.Coverage.FirstMatch
import RuleCoverage.Proofs.Coverage.Runs
import RuleCoverage.Proofs.Coverage.Shadowing
import RuleCoverage.Proofs.NormalForm.Satisfiability
import RuleCoverage.Schema.Inferred
import RuleCoverage.Proofs.Interval.Spelling
import RuleCoverage.Proofs.NormalForm.Blank
import RuleCoverage.Proofs.NormalForm.Budgets
import RuleCoverage.Proofs.NormalForm.Categories
import RuleCoverage.Proofs.NormalForm.Contradictions
import RuleCoverage.Proofs.NormalForm.Idempotence
import RuleCoverage.Proofs.NormalForm.InferredSchema
import RuleCoverage.Proofs.NormalForm.Irreducible
import RuleCoverage.Proofs.NormalForm.Proper
import RuleCoverage.Proofs.NormalForm.RoundTrip.Discrete
import RuleCoverage.Proofs.NormalForm.RoundTrip.Domain
import RuleCoverage.Proofs.NormalForm.RoundTrip.Rereading
import RuleCoverage.Proofs.NormalForm.Tautologies
import RuleCoverage.Proofs.NormalForm.Texts
import RuleCoverage.Proofs.NormalForm.WholeNumbers
import RuleCoverage.Proofs.NormalForm.Cycles
import RuleCoverage.Proofs.NormalForm.RoundTrip.Insertion
import RuleCoverage.Proofs.NormalForm.OperandOrder
import RuleCoverage.Proofs.NormalForm.Settling
import RuleCoverage.Proofs.Coverage.Compaction
import RuleCoverage.Proofs.Coverage.Failures
import RuleCoverage.Proofs.NormalForm.UniqueForm
import RuleCoverage.Proofs.Values.Discrete
import RuleCoverage.Proofs.Selector.Operators
import RuleCoverage.Proofs.Selector.StrictBinding
import RuleCoverage.Proofs.NormalForm.Entailment
import RuleCoverage.Proofs.Predicate.EqualMeaning
