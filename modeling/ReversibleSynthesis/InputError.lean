namespace ReversibleSynthesis

inductive InputError where
  | invalidBitString (text : String)
  | invalidHexString (text : String)
  | inconsistentTermWidth (term : String) (expected got : Nat)
  | tooManyVariables (got max : Nat)
  | variableOutOfRange (var numVars : Nat)
  | notAPowerOfTwo (length : Nat)
  | lengthMismatch (expected got : Nat)
  | valueOutOfRange (position value size : Nat)
  | notABijection (value : Nat)
  | invalidSignal (node size : Nat)
  deriving DecidableEq, Repr

def InputError.message : InputError → String
  | .invalidBitString text => s!"Invalid bit-string '{text}': only '0' and '1' are allowed"
  | .invalidHexString text => s!"Invalid hexadecimal string '{text}'"
  | .inconsistentTermWidth term expected got =>
      s!"Parity term '{term}' has {got} variables, expected {expected}"
  | .tooManyVariables got max => s!"{got} variables requested, at most {max} are supported"
  | .variableOutOfRange var numVars =>
      s!"Variable {var} out of range for a {numVars}-variable function"
  | .notAPowerOfTwo length =>
      s!"Length {length} is not a power of two of the form 2^n with n >= 1"
  | .lengthMismatch expected got => s!"Expected {expected} entries, got {got}"
  | .valueOutOfRange position value size =>
      s!"Value {value} at position {position} is outside the domain 0..{size}"
  | .notABijection value => s!"Value {value} appears more than once; not a bijection"
  | .invalidSignal node size =>
      s!"Signal refers to node {node}, but the network has {size} nodes"

end ReversibleSynthesis
