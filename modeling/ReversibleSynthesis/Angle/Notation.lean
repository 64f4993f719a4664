import ReversibleSynthesis.Angle
import ReversibleSynthesis.Decimal.Literal
import ReversibleSynthesis.Text.Blank

namespace ReversibleSynthesis.AngleNotation

inductive Error where
  | notFinite (text : String)
  | invalid (text : String)
  | invalidMultiplier (text : String) (cause : Decimal.LiteralError)
  | invalidDivisor (text : String) (cause : Decimal.LiteralError)
  | divisionByZero (text : String)
  deriving DecidableEq, Repr

def Error.messages : Error → List String
  | .notFinite text => [s!"Angle is not finite: '{text}'"]
  | .invalid text => [s!"Invalid angle: '{text}'"]
  | .invalidMultiplier text cause =>
      [s!"Invalid multiplier in angle: '{text}'", cause.message]
  | .invalidDivisor text cause => [s!"Invalid divisor in angle: '{text}'", cause.message]
  | .divisionByZero text => [s!"Division by zero in angle: '{text}'"]

def lower (c : Char) : List Char :=
  if c.toNat = 0x130 then ['i', Char.ofNat 0x307]
  else if c.toNat = 0x212a then ['k']
  else [c.toLower]

def splitPi? : List Char → Option (List Char × List Char)
  | [] => none
  | 'p' :: 'i' :: rest => some ([], rest)
  | c :: rest => (splitPi? rest).map fun (before, after) => (c :: before, after)

def multiplier (text : String) (before : List Char) : Except Error Float :=
  match (before.reverse.dropWhile (· == '*')).reverse with
  | [] => .ok 1.0
  | digits => (Decimal.parse (String.ofList digits)).mapError (.invalidMultiplier text)

def divisor (text : String) : List Char → Except Error Float
  | [] => .ok 1.0
  | '/' :: digits => (Decimal.parse (String.ofList digits)).mapError (.invalidDivisor text)
  | _ => .error (.invalid text)

def multipleOfPi (text : String) (body : List Char) : Except Error Float :=
  match splitPi? body with
  | none => .error (.invalid text)
  | some (before, after) => do
    let factor ← multiplier text before
    let divisor ← divisor text after
    if divisor == 0.0 then throw (.divisionByZero text)
    return factor * doublePi / divisor

def parse (text : String) : Except Error Float :=
  let trimmed := Text.trim text
  match Decimal.parse trimmed with
  | .ok value => if value.isFinite then .ok value else .error (.notFinite text)
  | .error _ =>
    match trimmed.toList.flatMap lower with
    | '-' :: body => (multipleOfPi text body).map (- ·)
    | body => multipleOfPi text body

end ReversibleSynthesis.AngleNotation
