import StackCode.Chunk.Depth
import StackCode.Diagnostic
import StackCode.Trap

/-! # Tags of causes

The name of each cause without its particulars, for readers that are programs.
-/

namespace StackCode

def HeapError.tag : HeapError → String
  | .danglingHandle _ => "DanglingHandle"
  | .uninitializedProperty .. => "UninitializedProperty"
  | .noSuchProperty .. => "NoSuchProperty"
  | .outOfBounds .. => "OutOfBounds"
  | .uninitializedSlot _ => "UninitializedSlot"
  | .blockTooLarge .. => "BlockTooLarge"

def Cause.tag : Cause → String
  | .typeMismatch .. => "TypeMismatch"
  | .uninitializedProperty .. => "UninitializedProperty"
  | .notCallable _ => "NotCallable"
  | .arityMismatch .. => "ArityMismatch"
  | .stackUnderflow => "StackUnderflow"
  | .stackOverflow => "StackOverflow"
  | .divisionByZero => "DivisionByZero"
  | .integerOverflow _ => "IntegerOverflow"
  | .indexOutOfBounds .. => "IndexOutOfBounds"
  | .allocationTooLarge .. => "AllocationTooLarge"
  | .keyNotFound _ => "KeyNotFound"
  | .danglingPointer _ => "DanglingPointer"
  | .unresolvedSymbol _ => "UnresolvedSymbol"
  | .unknownMethod .. => "UnknownMethod"
  | .invalidOpcode _ => "InvalidOpcode"
  | .notExecutable _ => "NotExecutable"
  | .internal _ => "Internal"

def Problem.tag : Problem → String
  | .unresolvedSymbol _ => "UnresolvedSymbol"
  | .tooManyConstants => "TooManyConstants"
  | .tooManySymbols => "TooManySymbols"
  | .tooManyLocals => "TooManyLocals"
  | .tooManyCaptures => "TooManyCaptures"
  | .tooManyParameters => "TooManyParameters"
  | .tooManyArguments => "TooManyArguments"
  | .tooManyProperties _ => "TooManyProperties"
  | .tooManyCases _ => "TooManyCases"
  | .jumpTooLarge => "JumpTooLarge"
  | .invalidAssignmentTarget => "InvalidAssignmentTarget"
  | .unknownMember .. => "UnknownMember"
  | .unknownArgumentLabel .. => "UnknownArgumentLabel"
  | .duplicateArgumentLabel .. => "DuplicateArgumentLabel"
  | .caseArityMismatch .. => "CaseArityMismatch"
  | .invalidPattern _ => "InvalidPattern"
  | .selfOutsideMethod => "SelfOutsideMethod"
  | .breakOutsideLoop => "BreakOutsideLoop"
  | .continueOutsideLoop => "ContinueOutsideLoop"
  | .nestedDeclaration _ => "NestedDeclaration"
  | .typeUsedAsValue _ => "TypeUsedAsValue"
  | .internal _ => "Internal"

def DepthError.tag : DepthError → String
  | .underflow .. => "Underflow"
  | .inconsistent .. => "InconsistentDepth"
  | .unbalancedReturn .. => "UnbalancedReturn"
  | .invalidInstruction _ => "InvalidInstruction"
  | .fallsOffEnd _ => "FallsOffEnd"

def Layout.tag : Layout → String
  | .none => "None"
  | .constant => "Constant"
  | .slot => "Slot"
  | .capture => "Capture"
  | .symbol => "Symbol"
  | .argCount => "ArgCount"
  | .count => "Count"
  | .property => "Property"
  | .jump => "Jump"
  | .invoke => "Invoke"
  | .case => "Case"
  | .associated => "Associated"

end StackCode
