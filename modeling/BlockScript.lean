import BlockScript.CommandLine.Answer
import BlockScript.Main
import BlockScript.Proofs.Acceptance
import BlockScript.Proofs.Move
import BlockScript.Proofs.PhraseValue
import BlockScript.Proofs.Scan
import BlockScript.Proofs.FailedMove
import BlockScript.Proofs.Composition
import BlockScript.Proofs.Stopping
import BlockScript.Proofs.Replay
import BlockScript.Proofs.Results
import BlockScript.Proofs.ErrorOrigin
import BlockScript.Proofs.BlockErrors
import BlockScript.Proofs.Diagnosis
import BlockScript.Proofs.Interference
import BlockScript.Proofs.ReadableNames
import BlockScript.Proofs.Placeholder
import BlockScript.Proofs.SavedProgram
import BlockScript.Proofs.ExactEvaluation
import BlockScript.Proofs.TreeOfPostfix
import BlockScript.Proofs.Offences
import BlockScript.Proofs.TokenRanges
import BlockScript.Proofs.Addresses
import BlockScript.Proofs.Displacement
import BlockScript.Proofs.Inverse
import BlockScript.Proofs.Growth
import BlockScript.Proofs.MoveErrors
import BlockScript.Proofs.FailureFits
import BlockScript.Proofs.Literals
import BlockScript.Proofs.Substitution
import BlockScript.Proofs.Conservation
import BlockScript.Proofs.ShownLine
import BlockScript.Proofs.NamePattern
import BlockScript.Proofs.OperandCount
import BlockScript.Proofs.PathText
