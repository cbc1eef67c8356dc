import DurableScript.Decimal.Reader
import DurableScript.Numeral

namespace DurableScript

inductive ValueFault where
  | integer (fault : Numeral.Fault)
  | decimal (fault : Decimal.Fault)
  | truth
  | blobType
  | recordPair
  deriving DecidableEq

def ValueFault.reason : ValueFault → String
  | .integer fault => fault.message
  | .decimal fault => fault.message
  | .truth => "expected 1 or 0"
  | .blobType => "missing blob type"
  | .recordPair => "record pair without ':'"

inductive OperandKind where
  | string | index | bool | literal
  deriving DecidableEq

namespace OperandKind

def name : OperandKind → String
  | string => "string"
  | index => "int"
  | bool => "bool"
  | literal => "literal"

def requirement : OperandKind → String
  | index => "non-negative int"
  | other => other.name

end OperandKind

inductive InstructionFault where
  | operandsNotList
  | missingOperand (kind : OperandKind)
  | wrongOperand (kind : OperandKind) (found : String)
  | unknownBuiltin (name : String)
  | wildTarget (target : Nat)
  deriving DecidableEq

def InstructionFault.reason : InstructionFault → String
  | .operandsNotList => "operands must be a list"
  | .missingOperand kind => "missing " ++ kind.name ++ " operand"
  | .wrongOperand kind found => "expected " ++ kind.requirement ++ " operand, found " ++ found
  | .unknownBuiltin name => "unknown builtin '" ++ name ++ "'"
  | .wildTarget target => "jump target " ++ toString target ++ " out of range"

inductive ExecutionFault where
  | variablesNotObject
  | stackNotList
  | proceduresNotObject
  | entryNotIndex (procedure : String)
  | wrongIndex (shown : String)
  | unknownInterrupt (code : Nat)
  | noFrames
  | indexPastEnd (index size : Nat)
  deriving DecidableEq

def ExecutionFault.reason : ExecutionFault → String
  | .variablesNotObject => "scope variables must be an object"
  | .stackNotList => "scope stack must be a list"
  | .proceduresNotObject => "procedure table must be an object"
  | .entryNotIndex procedure => "procedure '" ++ procedure ++ "' has no entry index"
  | .wrongIndex shown => "invalid current index " ++ shown
  | .unknownInterrupt code => "unknown interrupt kind " ++ toString code
  | .noFrames => "no scopes"
  | .indexPastEnd index size =>
    "current index " ++ toString index ++ " past program end " ++ toString size

inductive FormatError where
  | json
  | version (found : Nat)
  | unknownTag (text : String)
  | malformedValue (text : String) (why : ValueFault)
  | unsupportedObject (typeName : String)
  | unknownInstruction (index code : Nat)
  | unknownOperator (index : Nat) (symbol : String)
  | malformedInstruction (index : Nat) (why : InstructionFault)
  | malformedExecution (why : ExecutionFault)
  | unknownBlobType (typeName : String)
  | blob (typeName message : String)
  | referenceNotFound (id : String)
  | binary
  deriving DecidableEq

namespace FormatError

def what : FormatError → String
  | json => "invalid json"
  | version found => "unsupported format version " ++ toString found
  | unknownTag text => "unsupported tagged value '" ++ text ++ "'"
  | malformedValue text why => "malformed value '" ++ text ++ "': " ++ why.reason
  | unsupportedObject typeName => "unsupported object of type '" ++ typeName ++ "'"
  | unknownInstruction index code =>
    "unknown opcode " ++ toString code ++ " at instruction " ++ toString index
  | unknownOperator index symbol =>
    "unknown operator '" ++ symbol ++ "' at instruction " ++ toString index
  | malformedInstruction index why =>
    "malformed instruction " ++ toString index ++ ": " ++ why.reason
  | malformedExecution why => "malformed process: " ++ why.reason
  | unknownBlobType typeName => "unknown blob type '" ++ typeName ++ "'"
  | blob typeName message => "cannot decode '" ++ typeName ++ "' blob: " ++ message
  | referenceNotFound id => "reference not found: " ++ id
  | binary => "binary program"

def message (e : FormatError) : String := "serialization error: " ++ e.what

end FormatError

end DurableScript
