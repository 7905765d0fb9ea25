import Inkwell.Main
import Inkwell.Proofs.Evaluation.Arithmetic
import Inkwell.Proofs.Evaluation.Concatenation
import Inkwell.Proofs.Evaluation.Exceptions
import Inkwell.Proofs.Evaluation.Rename
import Inkwell.Proofs.Evaluation.Repeat
import Inkwell.Proofs.Evaluation.Soundness
import Inkwell.Proofs.Grammar.Canonical
import Inkwell.Proofs.Reading.Calls
import Inkwell.Proofs.Reading.Deeds
import Inkwell.Proofs.Reading.Earliest
import Inkwell.Proofs.Reading.Formed
import Inkwell.Proofs.Reading.Recovery
import Inkwell.Proofs.Token.Segmentation
import Inkwell.Proofs.Evaluation.Conduct
import Inkwell.Proofs.Evaluation.Verbosity
import Inkwell.Proofs.Evaluation.Chain
import Inkwell.Proofs.Evaluation.Record
import Inkwell.Proofs.Evaluation.History
import Inkwell.Proofs.Tree.Marks
import Inkwell.Proofs.Evaluation.Nesting
import Inkwell.Proofs.Reading.Termination
import Inkwell.Proofs.Evaluation.Limit
import Inkwell.Proofs.Evaluation.Printed
import Inkwell.Proofs.Console.Isolation
