namespace ReversibleSynthesis.Verilog

structure DependencyGraph where
  size : Nat
  edges : List (Nat × Nat)
  deriving DecidableEq, Repr

namespace DependencyGraph

def successors (g : DependencyGraph) (u : Nat) : List Nat :=
  (g.edges.filter fun e => e.1 == u).map Prod.snd

def predecessors (g : DependencyGraph) (u : Nat) : List Nat :=
  (g.edges.filter fun e => e.2 == u).map Prod.fst

structure Search where
  discovered : List Nat
  finished : List Nat
  deriving DecidableEq, Repr

def visit (g : DependencyGraph) : Nat → Search → Nat → Except Nat Search
  | 0, s, _ => .ok s
  | depth + 1, s, u =>
    if u ∈ s.discovered then .ok s
    else if u ∈ g.successors u then .error u
    else do
      let s ← (g.successors u).foldlM (visit g depth) { s with discovered := u :: s.discovered }
      return { s with finished := u :: s.finished }

def reversePostorder (g : DependencyGraph) : Except Nat (List Nat) := do
  let s ← (List.range g.size).foldlM (g.visit g.size) ⟨[], []⟩
  return s.finished

def firstLate? (g : DependencyGraph) (seen : List Nat) : List Nat → Option Nat
  | [] => none
  | u :: rest =>
    match (g.predecessors u).find? (fun v => !(u :: seen).contains v) with
    | some v => some v
    | none => g.firstLate? (u :: seen) rest

def order (g : DependencyGraph) : Except Nat (List Nat) := do
  let vertices ← g.reversePostorder
  match g.firstLate? [] vertices with
  | some v => throw v
  | none => return vertices

end DependencyGraph

end ReversibleSynthesis.Verilog
