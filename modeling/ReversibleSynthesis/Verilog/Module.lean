namespace ReversibleSynthesis.Verilog

inductive BinaryOperator where
  | and
  | or
  | xor
  deriving DecidableEq, Repr

namespace BinaryOperator

def precedence : BinaryOperator → Nat
  | .or => 1
  | .xor => 2
  | .and => 3

def apply : BinaryOperator → Bool → Bool → Bool
  | .and, a, b => a && b
  | .or, a, b => a || b
  | .xor, a, b => a ^^ b

def mark : BinaryOperator → String
  | .and => "&"
  | .or => "|"
  | .xor => "^"

end BinaryOperator

inductive Expression where
  | identifier (name : String)
  | constant (value : Bool)
  | not (inner : Expression)
  | binary (left : Expression) (op : BinaryOperator) (right : Expression)
  deriving DecidableEq, Repr

namespace Expression

def identifiers : Expression → List String
  | .identifier name => [name]
  | .constant _ => []
  | .not inner => inner.identifiers
  | .binary left _ right => left.identifiers ++ right.identifiers

def eval (valuation : String → Bool) : Expression → Bool
  | .identifier name => valuation name
  | .constant value => value
  | .not inner => !inner.eval valuation
  | .binary left op right => op.apply (left.eval valuation) (right.eval valuation)

def prefixText : Expression → String
  | .identifier name => name
  | .constant value => if value then "1" else "0"
  | .not inner => "(~ " ++ inner.prefixText ++ ")"
  | .binary left op right =>
      "(" ++ op.mark ++ " " ++ left.prefixText ++ " " ++ right.prefixText ++ ")"

end Expression

structure Assign where
  target : String
  expr : Expression
  line : Nat
  deriving DecidableEq, Repr

structure Module where
  name : String
  ports : List String
  inputs : List String
  outputs : List String
  wires : List String
  assigns : List Assign
  deriving DecidableEq, Repr

end ReversibleSynthesis.Verilog
