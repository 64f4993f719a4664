import ReversibleSynthesis.Json.Reader

namespace ReversibleSynthesis.Json

def asBool? : Json → Option Bool
  | .bool b => some b
  | _ => none

def asString? : Json → Option String
  | .string s => some s
  | _ => none

def asList? {β : Type} (decode : Json → Option β) : Json → Option (List β)
  | .array items => items.mapM decode
  | _ => none

def asNat? (bound : Nat) : Json → Option Nat
  | .number literal =>
    let cs := literal.toList
    let n := Decimal.digitsValue cs
    if cs.all Char.isDigit && decide (n < bound) then some n else none
  | _ => none

def asOptional? {β : Type} (decode : Json → Option β) : Json → Option (Option β)
  | .null => some none
  | j => (decode j).map some

def maxSignificand : Nat := Nat.pow 2 64 - 1

def gather (significand dropped : Nat) : List Char → Nat × Nat
  | [] => (significand, dropped)
  | c :: cs =>
    let next := 10 * significand + (c.toNat - '0'.toNat)
    if dropped = 0 ∧ next ≤ maxSignificand then gather next 0 cs
    else gather significand (dropped + 1) cs

def scaled? (f : Float) (power : Int) : Nat → Option Float
  | 0 => some f
  | steps + 1 =>
    if power.natAbs ≤ 308 then
      let ten := Float.ofScientific 1 false power.natAbs
      if 0 ≤ power then
        let product := f * ten
        if product.isInf then none else some product
      else some (f / ten)
    else if f == 0.0 then some f
    else if 0 ≤ power then none
    else scaled? (f / Float.ofScientific 1 false 308) (power + 308) steps

def literalMagnitude? (cs : List Char) : Option Float := do
  let whole := cs.takeWhile Char.isDigit
  let rest := cs.dropWhile Char.isDigit
  let (significand, dropped) := gather 0 0 whole
  let (fraction, rest) := match rest with
    | '.' :: more => (more.takeWhile Char.isDigit, more.dropWhile Char.isDigit)
    | _ => ([], rest)
  let (significand, ignored) := gather significand 0 fraction
  let written ← Decimal.exponent? rest
  let power : Int := dropped - (fraction.length - ignored : Nat) + written
  scaled? (Float.ofNat significand) power 4

def asFloat? : Json → Option Float
  | .number literal =>
    match literal.toList with
    | '-' :: cs => (literalMagnitude? cs).map (- ·)
    | cs => literalMagnitude? cs
  | _ => none

def field? (members : List (String × Json)) (name : String) : Option (Option Json) :=
  match members.filter fun m => m.1 == name with
  | [] => some none
  | [(_, value)] => some (some value)
  | _ => none

def fields? (names : List String) : Json → Option (List (Option Json))
  | .object members => names.mapM (field? members)
  | .array items => if items.length = names.length then some (items.map some) else none
  | _ => none

def variant? : Json → Option (String × Option Json)
  | .string name => some (name, none)
  | .object [(name, content)] => some (name, some content)
  | _ => none

def noContent : Option Json → Bool
  | none => true
  | some .null => true
  | _ => false

end ReversibleSynthesis.Json
