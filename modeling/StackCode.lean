import StackCode.Json.Printer
import StackCode.Main
import StackCode.Proofs.BoxedRuns
import StackCode.Proofs.Clashes
import StackCode.Proofs.CoreCorrectness
import StackCode.Proofs.DictionaryRefinement
import StackCode.Proofs.Disassembly
import StackCode.Proofs.Domains
import StackCode.Proofs.EnumValues
import StackCode.Proofs.ExactArithmetic
import StackCode.Proofs.FileRuns
import StackCode.Proofs.LabelledCalls
import StackCode.Proofs.LastDeclarations
import StackCode.Proofs.Limits
import StackCode.Proofs.LineTables
import StackCode.Proofs.PropertyOffsets
import StackCode.Proofs.TreeRoundTrip
import StackCode.Report.Descriptor
import StackCode.Report.Run
import StackCode.Syntax.Builder
