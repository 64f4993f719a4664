import ReversibleSynthesis.Bits
import ReversibleSynthesis.InputError

namespace ReversibleSynthesis

structure TruthTable where
  numVars : Nat
  words : Array UInt64
  deriving DecidableEq, Repr

namespace TruthTable

def maxVars : Nat := 20

def wordCount (n : Nat) : Nat := (Nat.pow 2 n + 63) / 64

def checkArity (n : Nat) : Except InputError Unit :=
  if n ≤ maxVars then .ok () else .error (.tooManyVariables n maxVars)

def tabulate (n : Nat) (f : Nat → Bool) : TruthTable where
  numVars := n
  words := Array.ofFn (n := wordCount n) fun w =>
    UInt64.ofNat (packBits (fun i => decide (64 * w.val + i < Nat.pow 2 n) && f (64 * w.val + i)) 64)

def ofFn (n : Nat) (f : Nat → Bool) : Except InputError TruthTable := do
  checkArity n
  return tabulate n f

def const0 (n : Nat) : Except InputError TruthTable := do
  checkArity n
  return ⟨n, Array.replicate (wordCount n) 0⟩

def ofBits (n : Nat) (bits : List Bool) : Except InputError TruthTable := do
  checkArity n
  if bits.length = Nat.pow 2 n then
    let values := bits.toArray
    return tabulate n fun x => values.getD x false
  else throw (.lengthMismatch (Nat.pow 2 n) bits.length)

def nthVar (n var : Nat) : Except InputError TruthTable :=
  if var < n then ofFn n (fun x => x.testBit var) else .error (.variableOutOfRange var n)

def numBits (t : TruthTable) : Nat := Nat.pow 2 t.numVars

def numBits? (t : TruthTable) : Option Nat := if t.numVars < 64 then some t.numBits else none

def bit (t : TruthTable) (x : Nat) : Bool :=
  (t.words.getD (x / 64) 0).toNat.testBit (x % 64)

def bit? (t : TruthTable) (x : Nat) : Option Bool := do
  let size ← t.numBits?
  let word ← t.words[x / 64]?
  if x < size then some (word.toNat.testBit (x % 64)) else none

def bits (t : TruthTable) : List Bool := (List.range t.numBits).map t.bit

def countOnes (t : TruthTable) : Nat :=
  t.words.foldl (fun k w => k + weight 64 w.toNat) 0

def isConst0 (t : TruthTable) : Bool := t.words.all (· == 0)

def combine (op : UInt64 → UInt64 → UInt64) (a b : TruthTable) : TruthTable :=
  ⟨a.numVars, Array.zipWith op a.words b.words⟩

def and : TruthTable → TruthTable → TruthTable := combine (· &&& ·)

def or : TruthTable → TruthTable → TruthTable := combine (· ||| ·)

def xor : TruthTable → TruthTable → TruthTable := combine (· ^^^ ·)

def usedMask (n : Nat) : UInt64 := UInt64.ofNat (Nat.pow 2 (Nat.pow 2 n) - 1)

def complement (t : TruthTable) : TruthTable :=
  let words := t.words.map (~~~ ·)
  ⟨t.numVars, if t.numVars < 6 then words.modify 0 (· &&& usedMask t.numVars) else words⟩

def combine? (op : TruthTable → TruthTable → TruthTable) (a b : TruthTable) :
    Option TruthTable :=
  if a.numVars = b.numVars then some (op a b) else none

def complement? (t : TruthTable) : Option TruthTable :=
  if t.numVars < 6 ∧ t.words.size = 0 then none else some t.complement

end TruthTable

end ReversibleSynthesis
