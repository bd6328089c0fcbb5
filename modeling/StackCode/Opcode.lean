/-! # Opcodes

The instructions of the machine, each with the layout of its operand and its effect on the depth of
the value stack.
-/

namespace StackCode

inductive Opcode where
  | constant
  | pushNone
  | pushTrue
  | pushFalse
  | pop
  | getLocal
  | setLocal
  | defineLocal
  | defineCell
  | getCapture
  | setCapture
  | getModuleValue
  | setModuleValue
  | getModuleFunction
  | getStruct
  | getBuiltin
  | getSelf
  | makeClosure
  | call
  | callChunk
  | invokeMethod
  | getMethod
  | ret
  | getProperty
  | setProperty
  | initArray
  | initDict
  | get
  | setSubscript
  | add
  | subtract
  | multiply
  | divide
  | modulo
  | negate
  | not
  | equal
  | notEqual
  | less
  | greater
  | lessEqual
  | greaterEqual
  | jump
  | jumpIfFalse
  | loop
  | matchCase
  | getAssociated
deriving DecidableEq, Repr

inductive Layout where
  | none
  /-- The index of a constant in two bytes. -/
  | constant
  | slot
  | capture
  /-- The index of a symbol in two bytes. -/
  | symbol
  | argCount
  /-- A number of elements in two bytes. -/
  | count
  | property
  /-- A signed distance in two bytes, from the end of the instruction. -/
  | jump
  /-- The index of a symbol in two bytes, then a number of arguments. -/
  | invoke
  /-- The index of the symbol of an enum in two bytes, then the number of a case. -/
  | case
  | associated
deriving DecidableEq, Repr

namespace Layout

def width : Layout → Nat
  | none => 0
  | slot | capture | argCount | property | associated => 1
  | constant | symbol | count | jump => 2
  | invoke | case => 3

end Layout

namespace Opcode

def all : List Opcode :=
  [constant, pushNone, pushTrue, pushFalse, pop, getLocal, setLocal, defineLocal, defineCell,
    getCapture, setCapture, getModuleValue, setModuleValue, getModuleFunction, getStruct,
    getBuiltin, getSelf, makeClosure, call, callChunk, invokeMethod, getMethod, ret, getProperty,
    setProperty, initArray, initDict, get, setSubscript, add, subtract, multiply, divide, modulo,
    negate, not, equal, notEqual, less, greater, lessEqual, greaterEqual, jump, jumpIfFalse, loop,
    matchCase, getAssociated]

def toByte (op : Opcode) : UInt8 := UInt8.ofNat op.ctorIdx

def table : Array Opcode := all.toArray

def ofByte? (b : UInt8) : Option Opcode := table[b.toNat]?

def layout : Opcode → Layout
  | constant => .constant
  | getLocal | setLocal | defineLocal | defineCell => .slot
  | getCapture | setCapture => .capture
  | getModuleValue | setModuleValue | getModuleFunction | getStruct | getBuiltin | makeClosure
  | callChunk | getMethod => .symbol
  | call => .argCount
  | invokeMethod => .invoke
  | getProperty | setProperty => .property
  | initArray | initDict => .count
  | jump | jumpIfFalse | loop => .jump
  | matchCase => .case
  | getAssociated => .associated
  | _ => .none

def size (op : Opcode) : Nat := 1 + op.layout.width

def name : Opcode → String
  | constant => "CONSTANT"
  | pushNone => "NONE"
  | pushTrue => "TRUE"
  | pushFalse => "FALSE"
  | pop => "POP"
  | getLocal => "GET_LOCAL"
  | setLocal => "SET_LOCAL"
  | defineLocal => "DEFINE_LOCAL"
  | defineCell => "DEFINE_CELL"
  | getCapture => "GET_CAPTURE"
  | setCapture => "SET_CAPTURE"
  | getModuleValue => "GET_MODULE_VALUE"
  | setModuleValue => "SET_MODULE_VALUE"
  | getModuleFunction => "GET_MODULE_FUNCTION"
  | getStruct => "GET_STRUCT"
  | getBuiltin => "GET_BUILTIN"
  | getSelf => "GET_SELF"
  | makeClosure => "MAKE_CLOSURE"
  | call => "CALL"
  | callChunk => "CALL_CHUNK"
  | invokeMethod => "INVOKE_METHOD"
  | getMethod => "GET_METHOD"
  | ret => "RETURN"
  | getProperty => "GET_PROPERTY"
  | setProperty => "SET_PROPERTY"
  | initArray => "INIT_ARRAY"
  | initDict => "INIT_DICT"
  | get => "GET"
  | setSubscript => "SET_SUBSCRIPT"
  | add => "ADD"
  | subtract => "SUBTRACT"
  | multiply => "MULTIPLY"
  | divide => "DIVIDE"
  | modulo => "MODULO"
  | negate => "NEGATE"
  | not => "NOT"
  | equal => "EQUAL"
  | notEqual => "NOT_EQUAL"
  | less => "LESS"
  | greater => "GREATER"
  | lessEqual => "LESS_EQUAL"
  | greaterEqual => "GREATER_EQUAL"
  | jump => "JUMP"
  | jumpIfFalse => "JUMP_IF_FALSE"
  | loop => "LOOP"
  | matchCase => "MATCH_CASE"
  | getAssociated => "GET_ASSOCIATED"

def ofName? (name : String) : Option Opcode := all.find? (·.name == name)

/-- The change of the stack depth, where `count` is the number of arguments, elements or entries of
an instruction that has one. A return takes its result off the stack and ends the frame. -/
def effect (op : Opcode) (count : Nat) : Int :=
  match op with
  | constant | pushNone | pushTrue | pushFalse | getLocal | getCapture | getModuleValue
  | getModuleFunction | getStruct | getBuiltin | getSelf | makeClosure | callChunk => 1
  | setLocal | setCapture | setModuleValue | getMethod | getProperty | negate | not | jump | loop
  | matchCase | getAssociated => 0
  | pop | defineLocal | defineCell | ret | setProperty | get | jumpIfFalse | add | subtract
  | multiply | divide | modulo | equal | notEqual | less | greater | lessEqual | greaterEqual => -1
  | setSubscript => -2
  | call | invokeMethod => -count
  | initArray => 1 - count
  | initDict => 1 - 2 * count

def inputs (op : Opcode) (count : Nat) : Nat :=
  match op with
  | pop | setLocal | defineLocal | defineCell | setCapture | setModuleValue | getMethod | ret
  | getProperty | negate | not | jumpIfFalse | matchCase | getAssociated => 1
  | setProperty | get | add | subtract | multiply | divide | modulo | equal | notEqual | less
  | greater | lessEqual | greaterEqual => 2
  | setSubscript => 3
  | call | invokeMethod => count + 1
  | initArray => count
  | initDict => 2 * count
  | _ => 0

/-- Whether the instruction never continues with the one after it. -/
def isTerminal : Opcode → Bool
  | ret | jump | loop => true
  | _ => false

end Opcode

end StackCode
