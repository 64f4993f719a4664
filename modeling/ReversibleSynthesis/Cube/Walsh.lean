import ReversibleSynthesis.Angle
import ReversibleSynthesis.Cube
import ReversibleSynthesis.ParityTerms

namespace ReversibleSynthesis.Cube

variable {α : Type}

def walsh [Add α] [Sub α] : {n : Nat} → Cube α n → Cube α n
  | _, .point a => .point a
  | _, .join lo hi =>
      let a := lo.walsh
      let b := hi.walsh
      .join (a.zipWith (· + ·) b) (a.zipWith (· - ·) b)

def termAngle [Angle α] (n : Nat) (sum : α) : α :=
  -Angle.ofNat 2 * sum * (Angle.ofNat 1 / Angle.ofNat (Nat.pow 2 n))

def phaseTerms [Angle α] {n : Nat} (phases : Cube α n) : ParityTerms α :=
  let terms : List (ParityTerm α) :=
    phases.walsh.toList.mapIdx fun mask sum => ⟨mask, termAngle n sum⟩
  (terms.filter fun t => t.mask != 0 && !Angle.isNegligible t.angle).foldl
    (fun ts t => ts.insert t.mask t.angle) ⟨some n, [], []⟩

end ReversibleSynthesis.Cube
