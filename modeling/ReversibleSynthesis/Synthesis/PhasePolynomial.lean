import ReversibleSynthesis.Angle
import ReversibleSynthesis.Bits
import ReversibleSynthesis.Gate
import ReversibleSynthesis.ParityTerms

namespace ReversibleSynthesis.PhasePolynomial

variable {α : Type}

structure Pending (α : Type) where
  coeffs : Nat
  angle : α
  done : Bool
  deriving DecidableEq, Repr

def Pending.wire? (t : Pending α) : Option Nat :=
  if t.done then none else powerOfTwoLog? t.coeffs

def Pending.toggle (control target : Nat) (t : Pending α) : Pending α :=
  if t.coeffs.testBit target then { t with coeffs := t.coeffs ^^^ 1 <<< control } else t

structure Sweep (α : Type) where
  width : Nat
  gates : Array (Gate α)
  parities : Array Nat
  terms : Array (Pending α)

namespace Sweep

def start [Angle α] (width : Nat) (terms : List (ParityTerm α)) : Sweep α where
  width := width
  gates := #[]
  parities := Array.ofFn (n := width) fun q => Nat.pow 2 q.val
  terms := (terms.filter fun t => t.mask != 0 && !Angle.isZero t.angle).toArray.map
    fun t => ⟨t.mask, t.angle, false⟩

def isPending (s : Sweep α) (t : Nat) : Bool :=
  match s.terms[t]? with
  | some term => !term.done
  | none => false

def coeff (s : Sweep α) (row t : Nat) : Bool :=
  match s.terms[t]? with
  | some term => term.coeffs.testBit row
  | none => false

def parityHas (s : Sweep α) (var row : Nat) : Bool :=
  (s.parities.getD row 0).testBit var

def allOnes (s : Sweep α) (ts : List Nat) (row : Nat) : Bool :=
  let live := ts.filter s.isPending
  !live.isEmpty && live.all (s.coeff row)

def realize (s : Sweep α) : Sweep α :=
  { s with
    gates := s.terms.foldl
      (fun gates t => match t.wire? with
        | some q => gates.push (Gate.phase t.angle q)
        | none => gates) s.gates
    terms := s.terms.map fun t =>
      if t.wire?.isSome then { t with done := true } else t }

def cnot (s : Sweep α) (control target : Nat) : Sweep α :=
  realize { s with
    gates := s.gates.push (Gate.cnot control target)
    parities := s.parities.modify target (· ^^^ s.parities.getD control 0)
    terms := s.terms.map (Pending.toggle control target) }

def gather (ts : List Nat) (target : Nat) : Nat → Sweep α → Sweep α
  | 0, s => s
  | rounds + 1, s =>
    if s.allOnes ts target then
      match (List.range s.width).find? (fun j => j != target && s.allOnes ts j) with
      | some j => gather ts target rounds (s.cnot j target)
      | none => s
    else s

def gatherInto (ts : List Nat) (target? : Option Nat) (s : Sweep α) : Sweep α :=
  match target? with
  | some target => gather ts target s.width s
  | none => s

def imbalance (s : Sweep α) (ts : List Nat) (row : Nat) : Nat :=
  let ones := ts.countP (s.coeff row)
  max ones (ts.length - ones)

def better (s : Sweep α) (ts : List Nat) (best : Option (Nat × Nat)) (row : Nat) :
    Option (Nat × Nat) :=
  let score := s.imbalance ts row
  match best with
  | some (_, top) => if top < score then some (row, score) else best
  | none => some (row, score)

def bestRow? (s : Sweep α) (ts rows : List Nat) : Option (Nat × Nat) :=
  rows.foldl (s.better ts) none

def visit : Nat → List Nat → List Nat → Option Nat → Sweep α → Sweep α
  | depth, ts, rows, target?, s =>
    let s := gatherInto ts target? s
    let live := ts.filter s.isPending
    match depth, live with
    | 0, _ => s
    | _, [] => s
    | depth + 1, _ :: _ =>
      match s.bestRow? live rows with
      | none => s
      | some (row, _) =>
        let rest := rows.filter (· != row)
        let (ones, zeros) := live.partition (s.coeff row)
        visit depth ones rest (target?.or (some row)) (visit depth zeros rest target? s)

def settle (t : Nat) : Nat → Sweep α → Sweep α
  | 0, s => s
  | rounds + 1, s =>
    if s.isPending t then
      match (List.range s.width).filter (fun row => s.coeff row t) with
      | target :: control :: _ => settle t rounds (s.cnot control target)
      | _ => s
    else s

def eliminate (s : Sweep α) (col : Nat) : Sweep α :=
  let s :=
    if s.parityHas col col then s
    else
      match (List.range s.width).find? (fun r => decide (col < r) && s.parityHas col r) with
      | some r => s.cnot r col
      | none => s
  (List.range s.width).foldl
    (fun s r => if r != col && s.parityHas col r then s.cnot col r else s) s

def treated (s : Sweep α) : Sweep α :=
  let all := List.range s.terms.size
  visit s.width all (List.range s.width) none s.realize

def finished (s : Sweep α) : Sweep α :=
  let s := (List.range s.terms.size).foldl (fun s t => settle t s.width s) s.treated
  (List.range s.width).foldl eliminate s

end Sweep

def circuit [Angle α] (width : Nat) (terms : ParityTerms α) : List (Gate α) :=
  (Sweep.start width terms.terms).finished.gates.toList

end ReversibleSynthesis.PhasePolynomial
