namespace ReversibleSynthesis.Decimal

structure Binary where
  significand : Nat
  exponent : Int
  tightBelow : Bool
  deriving DecidableEq, Repr

def Binary.ofBits? (bits : UInt64) : Option Binary :=
  let fraction : Nat := bits.toNat % Nat.pow 2 52
  let biased : Nat := bits.toNat / Nat.pow 2 52 % Nat.pow 2 11
  if biased = 0 then
    if fraction = 0 then none else some ⟨fraction, -1074, false⟩
  else some ⟨Nat.pow 2 52 + fraction, (biased : Int) - 1075, fraction = 0 ∧ 1 < biased⟩

inductive Tie where
  | up
  | toEven
  deriving DecidableEq, Repr

structure Digits where
  digits : Nat
  exponent : Int
  deriving DecidableEq, Repr

def digitCount (n : Nat) : Nat := (Nat.toDigits 10 n).length

def Binary.magnitude (b : Binary) : Int :=
  let scaled := b.significand * Nat.pow 2 b.exponent.toNat * Nat.pow 10 400 / Nat.pow 2 (-b.exponent).toNat
  (digitCount scaled : Int) - 400

structure Grid where
  quarter : Nat
  unit : Nat

def Binary.grid (b : Binary) (scale : Int) : Grid where
  quarter := Nat.pow 2 (b.exponent - 2).toNat * Nat.pow 10 (-scale).toNat
  unit := Nat.pow 10 scale.toNat * Nat.pow 2 (2 - b.exponent).toNat

def Binary.admits (b : Binary) (g : Grid) (d : Nat) : Bool :=
  let low := (4 * b.significand - (if b.tightBelow then 1 else 2)) * g.quarter
  let high := (4 * b.significand + 2) * g.quarter
  if b.significand % 2 = 0 then decide (low ≤ d * g.unit) && decide (d * g.unit ≤ high)
  else decide (low < d * g.unit) && decide (d * g.unit < high)

def Binary.nearest? (b : Binary) (tie : Tie) (g : Grid) : Option Nat :=
  let value := 4 * b.significand * g.quarter
  let down := value / g.unit
  let up := down + 1
  match b.admits g down, b.admits g up with
  | false, false => none
  | true, false => some down
  | false, true => some up
  | true, true =>
    let below := value - down * g.unit
    let above := up * g.unit - value
    if below < above then some down
    else if above < below then some up
    else
      match tie with
      | .up => some up
      | .toEven => some (if down % 2 = 0 then down else up)

def Binary.search (b : Binary) (tie : Tie) (magnitude : Int) : Nat → Nat → Digits
  | 0, _ => ⟨0, 0⟩
  | tries + 1, count =>
    match b.nearest? tie (b.grid (magnitude - count)) with
    | some d => ⟨d, (digitCount d : Int) + magnitude - count⟩
    | none => search b tie magnitude tries (count + 1)

def Binary.shortest (b : Binary) (tie : Tie) : Digits := b.search tie b.magnitude 17 1

end ReversibleSynthesis.Decimal
