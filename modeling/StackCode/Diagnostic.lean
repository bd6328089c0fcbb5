import StackCode.Syntax.Location

/-! # Diagnostics

The causes for which a program is not compiled, each with the place where it was found.
-/

namespace StackCode

inductive Problem where
  | unresolvedSymbol (name : String)
  | tooManyConstants
  | tooManySymbols
  | tooManyLocals
  | tooManyCaptures
  | tooManyParameters
  | tooManyArguments
  | tooManyProperties (struct : String)
  | tooManyCases (enum : String)
  | jumpTooLarge
  | invalidAssignmentTarget
  | unknownMember (type name : String)
  | unknownArgumentLabel (callee label : String)
  | duplicateArgumentLabel (callee label : String)
  | caseArityMismatch (case : String) (expected got : Nat)
  | invalidPattern (reason : String)
  | selfOutsideMethod
  | breakOutsideLoop
  | continueOutsideLoop
  /-- A declaration of the given sort that does not stand at file scope. -/
  | nestedDeclaration (sort : String)
  | typeUsedAsValue (name : String)
  /-- A tree that no analysis produces. -/
  | internal (reason : String)
deriving DecidableEq, Repr

namespace Problem

def message : Problem → String
  | unresolvedSymbol name => "unresolved symbol '" ++ name ++ "'"
  | tooManyConstants => "too many constants in one chunk (max 65536)"
  | tooManySymbols => "too many symbols referenced from one chunk (max 65536)"
  | tooManyLocals => "too many local variables in one function (max 256)"
  | tooManyCaptures => "too many captured variables in one closure (max 256)"
  | tooManyParameters => "too many parameters (max 255)"
  | tooManyArguments => "too many arguments (max 255)"
  | tooManyProperties struct => "too many properties in struct '" ++ struct ++ "' (max 256)"
  | tooManyCases enum => "too many cases in enum '" ++ enum ++ "' (max 256)"
  | jumpTooLarge => "jump offset too large (code too far apart)"
  | invalidAssignmentTarget => "invalid assignment target"
  | unknownMember type name => "type " ++ type ++ " has no member '" ++ name ++ "'"
  | unknownArgumentLabel callee label =>
    "'" ++ callee ++ "' has no parameter labelled '" ++ label ++ "'"
  | duplicateArgumentLabel callee label =>
    "argument '" ++ label ++ "' given twice in call to '" ++ callee ++ "'"
  | caseArityMismatch case expected got =>
    "case '" ++ case ++ "' has " ++ toString expected ++ " associated values, got " ++ toString got
  | invalidPattern reason => "invalid pattern: " ++ reason
  | selfOutsideMethod => "'self' can only be used inside a method"
  | breakOutsideLoop => "'break' can only be used inside a loop"
  | continueOutsideLoop => "'continue' can only be used inside a loop"
  | nestedDeclaration sort => sort ++ " declarations are only allowed at file scope"
  | typeUsedAsValue name => "'" ++ name ++ "' names a type, not a value"
  | internal reason => "internal compiler error: " ++ reason

end Problem

structure Diagnostic where
  problem : Problem
  path : String
  loc : Location
  hint : Option String := none
deriving DecidableEq, Repr

namespace Diagnostic

def text (d : Diagnostic) : String :=
  let hint := match d.hint with
    | some hint => "\n  hint: " ++ hint
    | none => ""
  d.path ++ ":" ++ d.loc.text ++ ": " ++ d.problem.message ++ hint

end Diagnostic

end StackCode
