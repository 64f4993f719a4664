namespace ReversibleSynthesis

def powerOfTwoLog? (n : Nat) : Option Nat := if 1 <<< n.log2 = n then some n.log2 else none

def setBits (width mask : Nat) : List Nat := (List.range width).filter mask.testBit

def weight (width mask : Nat) : Nat := (List.range width).countP mask.testBit

def oddOverlap (width a b : Nat) : Bool := weight width (a &&& b) % 2 == 1

def packBits (f : Nat → Bool) : Nat → Nat
  | 0 => 0
  | width + 1 => packBits f width + if f width then 1 <<< width else 0

def maskOfList : List Bool → Nat
  | [] => 0
  | b :: bs => b.toNat + 2 * maskOfList bs

def clearBit (mask i : Nat) : Nat := if mask.testBit i then mask - Nat.pow 2 i else mask

end ReversibleSynthesis
