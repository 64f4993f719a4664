import ReversibleSynthesis.TruthTable

namespace ReversibleSynthesis

namespace ReedMuller

def addLower (bit x : Nat) (coefficients : Array Bool) : Array Bool :=
  if x &&& bit ≠ 0 then
    coefficients.setIfInBounds x
      (coefficients.getD x false ^^ coefficients.getD (x ^^^ bit) false)
  else coefficients

def pass (coefficients : Array Bool) (var : Nat) : Array Bool :=
  let bit := Nat.pow 2 var
  Nat.fold coefficients.size (fun x _ => addLower bit x) coefficients

def monomials (coefficients : Array Bool) : List Nat :=
  (List.range coefficients.size).filter fun m => coefficients.getD m false

def count (coefficients : Array Bool) : Nat := coefficients.countP id

structure Best where
  polarity : Nat
  coefficients : Array Bool
  count : Nat
  deriving DecidableEq, Repr

end ReedMuller

namespace TruthTable

open ReedMuller

def expansion (f : TruthTable) (polarity : Nat) : Array Bool :=
  (List.range f.numVars).foldl pass
    ((Array.range f.numBits).map fun x => f.bit (x ^^^ polarity))

def tryPolarity (f : TruthTable) (best : Best) (polarity : Nat) : Best :=
  let coefficients := f.expansion polarity
  let count := ReedMuller.count coefficients
  if count < best.count then ⟨polarity, coefficients, count⟩ else best

def bestExpansion (f : TruthTable) : Best :=
  let first := f.expansion 0
  (List.range' 1 (f.numBits - 1)).foldl f.tryPolarity ⟨0, first, ReedMuller.count first⟩

end TruthTable

end ReversibleSynthesis
