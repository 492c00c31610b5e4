import TreeScript.Diagnostic
import TreeScript.Proofs.Origins
import TreeScript.Proofs.Rejection
import TreeScript.Proofs.Safety
import TreeScript.Proofs.Strictness
import TreeScript.Proofs.Termination
import TreeScript.Proofs.Remembering
import TreeScript.Proofs.Descent
import TreeScript.Proofs.Contracts
import TreeScript.Proofs.NormalForm
import TreeScript.Proofs.Restoring
import TreeScript.Proofs.Parameters
import TreeScript.Proofs.Accesses
import TreeScript.Proofs.Settled
import TreeScript.Proofs.Isolation
import TreeScript.Proofs.Arguments
import TreeScript.Proofs.Acceptance
import TreeScript.Proofs.Rounding
import TreeScript.Proofs.Comparison
import TreeScript.Proofs.NumericTexts
import TreeScript.Proofs.Readability
import TreeScript.Proofs.ReflectedDocs
import TreeScript.Proofs.Positions
import TreeScript.Proofs.Effects
import TreeScript.Proofs.CertainReads
import TreeScript.Proofs.Barriers
