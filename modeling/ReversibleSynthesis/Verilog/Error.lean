import ReversibleSynthesis.InputError

namespace ReversibleSynthesis.Verilog

inductive Error where
  | lexical (line : Nat) (text : String)
  | unexpectedToken (line : Nat) (expected found : String)
  | unexpectedEnd (missing : String)
  | undefinedIdentifier (name : String)
  | duplicateDeclaration (name : String)
  | assignToInput (name : String)
  | undrivenSignal (name : String)
  | combinationalLoop (name : String)
  | unsupportedConstant (text : String)
  | network (error : InputError)
  deriving DecidableEq, Repr

def invalidTokenMessage (text : String) : String := s!"Invalid token: '{text}'"

def Error.message : Error → String
  | .lexical line text => s!"Lexer error at line {line}: " ++ invalidTokenMessage text
  | .unexpectedToken line expected found =>
      s!"Unexpected token at line {line}: expected {expected}, found {found}"
  | .unexpectedEnd missing => s!"Unexpected end of input: {missing}"
  | .undefinedIdentifier name => s!"Undefined identifier: {name}"
  | .duplicateDeclaration name => s!"Duplicate declaration: {name}"
  | .assignToInput name => s!"Cannot assign to input '{name}'"
  | .undrivenSignal name => s!"Signal '{name}' is never assigned"
  | .combinationalLoop name => s!"Combinational loop through '{name}'"
  | .unsupportedConstant text =>
      s!"Unsupported constant '{text}': only single-bit 0/1 constants are allowed"
  | .network e => "Network error: " ++ e.message

def Error.messages : Error → List String
  | .network e => [(Error.network e).message, e.message]
  | e => [e.message]

end ReversibleSynthesis.Verilog
