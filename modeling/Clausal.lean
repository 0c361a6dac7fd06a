import Clausal.Workbench
import Clausal.Main
import Clausal.Proofs.RoundTrip
import Clausal.Proofs.Lexing
import Clausal.Proofs.Rejection
import Clausal.Proofs.Lines
import Clausal.Proofs.Outline
import Clausal.Proofs.Program
import Clausal.Proofs.Rendering
import Clausal.Proofs.Segment
import Clausal.Proofs.Wrapping
import Clausal.Proofs.Normal
import Clausal.Proofs.Failure
import Clausal.Proofs.Meaning
import Clausal.Proofs.Faithful
import Clausal.Proofs.Memory
import Clausal.Proofs.NegatedGroup
import Clausal.Proofs.Interspersed
import Clausal.Proofs.NegatedAtom
import Clausal.Proofs.Again
import Clausal.Proofs.Comparison
import Clausal.Proofs.Bars
import Clausal.Proofs.Classification
import Clausal.Proofs.Signature
import Clausal.Proofs.Directive
import Clausal.Proofs.Blocks
import Clausal.Proofs.Brackets
import Clausal.Proofs.Regrouping
import Clausal.Proofs.Recursion
