import ReversibleSynthesis.TruthTable

namespace ReversibleSynthesis.TruthTable

def bitOfChar? : Char → Option Bool
  | '0' => some false
  | '1' => some true
  | _ => none

def ofBinary (text : String) : Except InputError TruthTable :=
  match powerOfTwoLog? text.utf8ByteSize with
  | none => .error (.invalidBitString text)
  | some n =>
    match text.toList.reverse.mapM bitOfChar? with
    | none => .error (.invalidBitString text)
    | some bits => ofBits n bits

def toBinary (t : TruthTable) : String :=
  String.ofList (t.bits.reverse.map fun b => if b then '1' else '0')

def hexValue? (c : Char) : Option Nat :=
  if '0' ≤ c ∧ c ≤ '9' then some (c.toNat - '0'.toNat)
  else if 'a' ≤ c ∧ c ≤ 'f' then some (c.toNat - 'a'.toNat + 10)
  else if 'A' ≤ c ∧ c ≤ 'F' then some (c.toNat - 'A'.toNat + 10)
  else none

def nibble (value : Nat) : List Bool := (List.range 4).map value.testBit

def ofHex (n : Nat) (text : String) : Except InputError TruthTable := do
  checkArity n
  if text.utf8ByteSize ≠ (Nat.pow 2 n + 3) / 4 then throw (.invalidHexString text)
  match text.toList.reverse.mapM hexValue? with
  | none => throw (.invalidHexString text)
  | some digits =>
    let bits := digits.flatMap nibble
    if (bits.drop (Nat.pow 2 n)).any id then throw (.invalidHexString text)
    ofBits n (bits.take (Nat.pow 2 n))

end ReversibleSynthesis.TruthTable
