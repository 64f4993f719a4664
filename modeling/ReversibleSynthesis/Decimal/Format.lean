import ReversibleSynthesis.Decimal.Shortest

namespace ReversibleSynthesis.Decimal

structure Format where
  tie : Tie
  positional : Int → Bool
  wholeMark : String
  infinity : String
  negativeInfinity : String
  notANumber : String

def plain : Format where
  tie := .up
  positional _ := true
  wholeMark := ""
  infinity := "inf"
  negativeInfinity := "-inf"
  notANumber := "NaN"

def json : Format where
  tie := .toEven
  positional e := decide (-5 < e) && decide (e ≤ 16)
  wholeMark := ".0"
  infinity := "null"
  negativeInfinity := "null"
  notANumber := "null"

def zeros (n : Nat) : List Char := List.replicate n '0'

def significantDigits (n : Nat) : List Char :=
  ((Nat.toDigits 10 n).reverse.dropWhile (· == '0')).reverse

def positionalText (wholeMark : String) (digits : List Char) (e : Int) : String :=
  if e ≤ 0 then String.ofList ('0' :: '.' :: zeros (-e).toNat ++ digits)
  else
    let places := e.toNat
    if places < digits.length then
      String.ofList (digits.take places ++ '.' :: digits.drop places)
    else String.ofList (digits ++ zeros (places - digits.length)) ++ wholeMark

def exponentText (digits : List Char) (e : Int) : String :=
  let power := e - 1
  let mantissa := match digits with
    | d :: (_ :: _) => d :: '.' :: digits.drop 1
    | _ => digits
  let sign := if power < 0 then "-" else "+"
  String.ofList mantissa ++ "e" ++ sign ++ toString power.natAbs

def Format.magnitudeText (f : Format) (bits : UInt64) : String :=
  match Binary.ofBits? bits with
  | none => "0" ++ f.wholeMark
  | some b =>
    let d := b.shortest f.tie
    let digits := significantDigits d.digits
    if f.positional d.exponent then positionalText f.wholeMark digits d.exponent
    else exponentText digits d.exponent

def Format.text (f : Format) (a : Float) : String :=
  let bits := a.toBits
  let negative := decide (Nat.pow 2 63 ≤ bits.toNat)
  if a.isNaN then f.notANumber
  else if a.isFinite then (if negative then "-" else "") ++ f.magnitudeText bits
  else if negative then f.negativeInfinity
  else f.infinity

end ReversibleSynthesis.Decimal
