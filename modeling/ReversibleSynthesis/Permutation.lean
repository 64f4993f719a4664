import ReversibleSynthesis.Bits
import ReversibleSynthesis.InputError
import ReversibleSynthesis.TruthTable

namespace ReversibleSynthesis

structure Permutation where
  numVars : Nat
  values : Array Nat
  deriving DecidableEq, Repr

namespace Permutation

def checkValues (position : Nat) (seen : Array Bool) : List Nat → Except InputError Unit
  | [] => .ok ()
  | value :: rest =>
    match seen[value]? with
    | none => .error (.valueOutOfRange position value seen.size)
    | some true => .error (.notABijection value)
    | some false => checkValues (position + 1) (seen.setIfInBounds value true) rest

def ofValues (values : List Nat) : Except InputError Permutation :=
  let size := values.length
  match powerOfTwoLog? size with
  | none => .error (.notAPowerOfTwo size)
  | some n =>
    if n = 0 then .error (.notAPowerOfTwo size)
    else if TruthTable.maxVars < n then .error (.tooManyVariables n TruthTable.maxVars)
    else
      match checkValues 0 (Array.replicate size false) values with
      | .error e => .error e
      | .ok () => .ok ⟨n, values.toArray⟩

def identity (n : Nat) : Except InputError Permutation :=
  if TruthTable.maxVars < n then .error (.tooManyVariables n TruthTable.maxVars)
  else ofValues (List.range (Nat.pow 2 n))

def size (p : Permutation) : Nat := p.values.size

def image? (p : Permutation) (x : Nat) : Option Nat := p.values[x]?

def apply (p : Permutation) (x : Nat) : Nat := p.values.getD x 0

def invert (values : Array Nat) : Array Nat :=
  (List.range values.size).foldl
    (fun inverse x => inverse.setIfInBounds (values.getD x 0) x) (Array.replicate values.size 0)

def inverse (p : Permutation) : Permutation := ⟨p.numVars, invert p.values⟩

def isIdentity (p : Permutation) : Bool :=
  (List.range p.size).all fun x => p.apply x == x

end Permutation

end ReversibleSynthesis
