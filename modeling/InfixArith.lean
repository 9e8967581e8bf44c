import InfixArith.Expression
import InfixArith.Proofs.Control
import InfixArith.Proofs.Grammar.Evaluation
import InfixArith.Proofs.Postfix.Refinement
import InfixArith.Proofs.Accounting
import InfixArith.Proofs.Grammar.Derivation
import InfixArith.Proofs.Juxtaposition
import InfixArith.Proofs.Origin
import InfixArith.Proofs.SignZeros
import InfixArith.Proofs.Checkpoint
import InfixArith.Proofs.Openings
import InfixArith.Proofs.Representation
import InfixArith.Proofs.Conservation
import InfixArith.Proofs.Group
import InfixArith.Proofs.Shape
import InfixArith.Proofs.Unpaired
import InfixArith.Proofs.LongestMatch
import InfixArith.Proofs.Spans
import InfixArith.Proofs.Blame
import InfixArith.Proofs.Malformed
import InfixArith.Proofs.Log
import InfixArith.Proofs.Conversion
import InfixArith.Proofs.ReadBack
