import ReversibleSynthesis.Gate
import ReversibleSynthesis.InputError
import ReversibleSynthesis.Verilog.Error

namespace ReversibleSynthesis

inductive FileError where
  | notFound
  | notDirectory
  | nameTooLong
  | isDirectory
  | denied
  | notText
  deriving DecidableEq, Repr

namespace FileError

def message : FileError → String
  | .notFound => "No such file or directory (os error 2)"
  | .notDirectory => "Not a directory (os error 20)"
  | .nameTooLong => "File name too long (os error 36)"
  | .isDirectory => "Is a directory (os error 21)"
  | .denied => "Permission denied (os error 13)"
  | .notText => "stream did not contain valid UTF-8"

def isMissing : FileError → Bool
  | .notFound => true
  | .notDirectory => true
  | .nameTooLong => true
  | _ => false

end FileError

inductive SynthesisError where
  | gate (error : GateError)
  | input (error : InputError)
  | verilog (error : Verilog.Error)
  | unreadable (path : String) (error : FileError)
  | invalidAngleCount (count : Nat)
  | nonFiniteAngle (index : Nat)
  | unknownStrategy (name : String)
  | polaritySearchTooLarge (numVars max : Nat)
  | qubitCountMismatch (expected got : Nat)
  deriving DecidableEq, Repr

namespace SynthesisError

def message : SynthesisError → String
  | .gate e => "Netlist error: " ++ e.message
  | .input e => "Invalid input: " ++ e.message
  | .verilog e => "Parse error: " ++ e.message
  | .unreadable path e => s!"Cannot read '{path}': " ++ e.message
  | .invalidAngleCount count => s!"Expected 2^n - 1 angles for some n >= 1, got {count}"
  | .nonFiniteAngle index => s!"Angle at position {index} is not finite"
  | .unknownStrategy name => s!"Unknown STG kind '{name}' (expected spectrum, pkrm or pprm)"
  | .polaritySearchTooLarge numVars max =>
      s!"pprm supports at most {max} variables, got {numVars}"
  | .qubitCountMismatch expected got => s!"Expected {expected} qubits, got {got}"

def messages (e : SynthesisError) : List String :=
  e.message ::
    match e with
    | .gate cause => [cause.message]
    | .input cause => [cause.message]
    | .verilog cause => cause.messages
    | .unreadable _ cause => [cause.message]
    | _ => []

end SynthesisError

end ReversibleSynthesis
