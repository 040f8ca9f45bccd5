import JsonFilter.Proofs.Evaluation.PipeLaws
import JsonFilter.Proofs.Evaluation.Strictness
import JsonFilter.Proofs.Host.Pipeline
import JsonFilter.Proofs.Stream.Agreement
import JsonFilter.Proofs.Evaluation.Explosion
import JsonFilter.Proofs.Program.Encoding
import JsonFilter.Proofs.Program.Grammar
import JsonFilter.Proofs.Value.Agreement
import JsonFilter.Proofs.Host.LiteralInput
import JsonFilter.Proofs.Evaluation.Collecting
import JsonFilter.Proofs.Evaluation.Combining
import JsonFilter.Proofs.Evaluation.Traces
import JsonFilter.Proofs.Host.WellFormed
import JsonFilter.Proofs.Evaluation.Distribution
import JsonFilter.Proofs.Evaluation.Failures
import JsonFilter.Proofs.Program.Spellings
import JsonFilter.Proofs.Evaluation.Sequencing
import JsonFilter.Proofs.Evaluation.Accessors
import JsonFilter.Proofs.Program.Substitution
import JsonFilter.Proofs.Program.Unfolding
import JsonFilter.Proofs.Value.Ranges
