import ReversibleSynthesis.InputError

namespace ReversibleSynthesis

structure Signal where
  node : Nat
  complemented : Bool
  deriving DecidableEq, Repr

namespace Signal

def complement (s : Signal) : Signal := { s with complemented := !s.complemented }

def complementIf (s : Signal) (flip : Bool) : Signal := if flip then s.complement else s

def regular (s : Signal) : Signal := ⟨s.node, false⟩

def const (value : Bool) : Signal := ⟨0, value⟩

def le (a b : Signal) : Bool :=
  decide (a.node < b.node) || (a.node == b.node && (!a.complemented || b.complemented))

def ordered (a b : Signal) : Signal × Signal := if a.le b then (a, b) else (b, a)

def ordered3 (a b c : Signal) : Signal × Signal × Signal :=
  let (a, b) := ordered a b
  let (b, c) := ordered b c
  let (a, b) := ordered a b
  (a, b, c)

def text (s : Signal) : String := (if s.complemented then "~n" else "n") ++ toString s.node

end Signal

inductive Node where
  | constant
  | input (index : Nat)
  | and (a b : Signal)
  | xor (a b : Signal)
  | maj (a b c : Signal)
  deriving DecidableEq, Repr

def Node.isGate : Node → Bool
  | .constant => false
  | .input _ => false
  | _ => true

def Node.fanins : Node → List Signal
  | .constant => []
  | .input _ => []
  | .and a b => [a, b]
  | .xor a b => [a, b]
  | .maj a b c => [a, b, c]

structure Output where
  name : String
  signal : Signal
  deriving DecidableEq, Repr

structure Network where
  nodes : Array Node
  inputs : List Nat
  inputNames : List String
  outputs : List Output
  table : List (Node × Nat)
  deriving DecidableEq, Repr

namespace Network

def empty : Network := ⟨#[.constant], [], [], [], []⟩

def size (n : Network) : Nat := n.nodes.size

def numInputs (n : Network) : Nat := n.inputs.length

def numOutputs (n : Network) : Nat := n.outputs.length

def gates (n : Network) : List (Nat × Node) :=
  ((List.range n.size).zip n.nodes.toList).filter fun entry => entry.2.isGate

def numGates (n : Network) : Nat := n.nodes.countP Node.isGate

def push (n : Network) (node : Node) : Network := { n with nodes := n.nodes.push node }

def pushGate (n : Network) (node : Node) : Network :=
  { n.push node with table := (node, n.size) :: n.table }

def forgetSharing (n : Network) : Network := { n with table := [] }

def createInput (n : Network) (name : String) : Signal × Network :=
  let next := n.push (.input n.numInputs)
  (⟨n.size, false⟩,
    { next with inputs := n.inputs ++ [n.size], inputNames := n.inputNames ++ [name] })

def check (n : Network) (s : Signal) : Except InputError Unit :=
  if s.node < n.size then .ok () else .error (.invalidSignal s.node n.size)

def share (n : Network) (node : Node) : Signal × Network :=
  match n.table.lookup node with
  | some i => (⟨i, false⟩, n)
  | none => (⟨n.size, false⟩, n.pushGate node)

def createOutput (n : Network) (s : Signal) (name : String) : Except InputError Network := do
  n.check s
  return { n with outputs := n.outputs ++ [⟨name, s⟩] }

def andOrdered (n : Network) (a b : Signal) : Signal × Network :=
  if a = b then (a, n)
  else if a.node = b.node then (.const false, n)
  else if a.node = 0 then (if a.complemented then b else a, n)
  else n.share (.and a b)

def createAnd (n : Network) (a b : Signal) : Except InputError (Signal × Network) := do
  n.check a
  n.check b
  let (a, b) := Signal.ordered a b
  return n.andOrdered a b

def createOr (n : Network) (a b : Signal) : Except InputError (Signal × Network) := do
  let (s, n) ← n.createAnd a.complement b.complement
  return (s.complement, n)

def xorOrdered (n : Network) (a b : Signal) : Signal × Network :=
  if a = b then (.const false, n)
  else if a.node = 0 then (b, n)
  else n.share (.xor a b)

def createXor (n : Network) (a b : Signal) : Except InputError (Signal × Network) := do
  n.check a
  n.check b
  let flip := a.complemented != b.complemented
  let (a, b) := Signal.ordered a.regular b.regular
  let (s, n) := n.xorOrdered a b
  return (s.complementIf flip, n)

def majOrdered (n : Network) (a b c : Signal) : Signal × Network :=
  if a = b then (a, n)
  else if a = b.complement then (c, n)
  else if b = c then (b, n)
  else if b = c.complement then (a, n)
  else if a.node = c.node then (if a = c then a else b, n)
  else n.share (.maj a b c)

def createMaj (n : Network) (a b c : Signal) : Except InputError (Signal × Network) := do
  n.check a
  n.check b
  n.check c
  let (a, b, c) := Signal.ordered3 a b c
  return n.majOrdered a b c

end Network

end ReversibleSynthesis
