namespace ReversibleSynthesis

inductive Cube (α : Type) : Nat → Type where
  | point (a : α) : Cube α 0
  | join {n : Nat} (lo hi : Cube α n) : Cube α (n + 1)

namespace Cube

variable {α β γ : Type}

def tabulateFrom (f : Nat → α) : (n base : Nat) → Cube α n
  | 0, base => .point (f base)
  | n + 1, base => .join (tabulateFrom f n base) (tabulateFrom f n (base + Nat.pow 2 n))

def tabulate (n : Nat) (f : Nat → α) : Cube α n := tabulateFrom f n 0

def get : {n : Nat} → Cube α n → Nat → α
  | _, .point a, _ => a
  | _, .join (n := n) lo hi, x => if x.testBit n then hi.get x else lo.get x

def map (f : α → β) : {n : Nat} → Cube α n → Cube β n
  | _, .point a => .point (f a)
  | _, .join lo hi => .join (lo.map f) (hi.map f)

def zipWith (f : α → β → γ) : {n : Nat} → Cube α n → Cube β n → Cube γ n
  | _, .point a, .point b => .point (f a b)
  | _, .join lo hi, .join lo' hi' => .join (lo.zipWith f lo') (hi.zipWith f hi')

def toListAppend : {n : Nat} → Cube α n → List α → List α
  | _, .point a, rest => a :: rest
  | _, .join lo hi, rest => lo.toListAppend (hi.toListAppend rest)

def toList {n : Nat} (c : Cube α n) : List α := c.toListAppend []

end Cube

end ReversibleSynthesis
