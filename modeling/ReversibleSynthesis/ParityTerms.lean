import ReversibleSynthesis.Angle
import ReversibleSynthesis.Bits
import ReversibleSynthesis.InputError
import ReversibleSynthesis.TruthTable.Text

namespace ReversibleSynthesis

structure ParityTerm (α : Type) where
  mask : Nat
  angle : α
  deriving DecidableEq, Repr

structure ParityTerms (α : Type) where
  numVars? : Option Nat
  terms : List (ParityTerm α)
  index : List (Nat × Nat)
  deriving DecidableEq, Repr

namespace ParityTerms

variable {α : Type}

def maxVars : Nat := 64

def empty : ParityTerms α := ⟨none, [], []⟩

def withNumVars (n : Nat) : Except InputError (ParityTerms α) :=
  if n ≤ maxVars then .ok ⟨some n, [], []⟩ else .error (.tooManyVariables n maxVars)

def numVars (ts : ParityTerms α) : Nat := ts.numVars?.getD 0

def insert [Add α] (ts : ParityTerms α) (mask : Nat) (angle : α) : ParityTerms α :=
  match ts.index.lookup mask with
  | some pos =>
    { ts with terms := ts.terms.modify pos fun t => { t with angle := t.angle + angle } }
  | none =>
    { ts with
      terms := ts.terms ++ [⟨mask, angle⟩]
      index := (mask, ts.terms.length) :: ts.index }

def addBitString [Add α] (ts : ParityTerms α) (text : String) (angle : α) :
    Except InputError (ParityTerms α) :=
  let width := text.utf8ByteSize
  if width = 0 then .error (.invalidBitString text)
  else if maxVars < width then .error (.tooManyVariables width maxVars)
  else
    match text.toList.mapM TruthTable.bitOfChar? with
    | none => .error (.invalidBitString text)
    | some bits =>
      let expected := ts.numVars?.getD width
      if expected = width then
        .ok ({ ts with numVars? := some width }.insert (maskOfList bits) angle)
      else .error (.inconsistentTermWidth text expected width)

def maskWidth (mask : Nat) : Nat := mask.log2 + 1

def addTerm [Add α] (ts : ParityTerms α) (mask : Nat) (angle : α) :
    Except InputError (ParityTerms α) :=
  let width := maskWidth mask
  let expected := ts.numVars?.getD width
  if width ≤ expected then .ok ({ ts with numVars? := some expected }.insert mask angle)
  else
    .error (.inconsistentTermWidth (String.ofList (Nat.toDigits 2 mask)) expected width)

def ofBitStrings [Add α] (terms : List (String × α)) : Except InputError (ParityTerms α) :=
  terms.foldlM (fun ts (text, angle) => ts.addBitString text angle) empty

def angle? (ts : ParityTerms α) (mask : Nat) : Option α := do
  let pos ← ts.index.lookup mask
  return (← ts.terms[pos]?).angle

def phaseOf [Angle α] (ts : ParityTerms α) (x : Nat) : α :=
  (ts.terms.filter (fun t => oddOverlap maxVars t.mask x)).foldl
    (fun sum t => sum + t.angle) (-Angle.zero)

end ParityTerms

end ReversibleSynthesis
