namespace ReversibleSynthesis

class Angle (α : Type) extends Add α, Sub α, Neg α, Mul α, Div α where
  zero : α
  pi : α
  ofNat : Nat → α
  isZero : α → Bool
  isFinite : α → Bool
  isNegligible : α → Bool

def doublePi : Float := Float.ofBits 0x400921fb54442d18

def doubleCutoff : Float := Float.ofBits 0x3d719799812dea11

instance : Angle Float where
  zero := 0.0
  pi := doublePi
  ofNat := Float.ofNat
  isZero a := a == 0.0
  isFinite := Float.isFinite
  isNegligible a := !(doubleCutoff ≤ a.abs)

end ReversibleSynthesis
