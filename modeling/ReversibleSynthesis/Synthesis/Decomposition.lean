import ReversibleSynthesis.Permutation
import ReversibleSynthesis.Synthesis.SingleTarget

namespace ReversibleSynthesis.Decomposition

inductive Vertex where
  | right (key : Nat)
  | left (key : Nat)
  deriving DecidableEq, Repr

structure Colouring where
  right : Array (Option Bool)
  left : Array (Option Bool)
  deriving DecidableEq, Repr

namespace Colouring

def blank (size : Nat) : Colouring := ⟨Array.replicate size none, Array.replicate size none⟩

def colour? (c : Colouring) : Vertex → Option Bool
  | .right key => c.right.getD key none
  | .left key => c.left.getD key none

def isFree (c : Colouring) : Vertex → Bool
  | .right key => c.right[key]? == some none
  | .left key => c.left[key]? == some none

def paint (c : Colouring) (colour : Bool) : Vertex → Colouring
  | .right key => { c with right := c.right.setIfInBounds key (some colour) }
  | .left key => { c with left := c.left.setIfInBounds key (some colour) }

def numFree (c : Colouring) : Nat := c.right.countP Option.isNone + c.left.countP Option.isNone

end Colouring

theorem countP_setIfInBounds {side : Array (Option Bool)} {key : Nat} (colour : Bool)
    (h : side[key]? = some none) :
    (side.setIfInBounds key (some colour)).countP Option.isNone + 1 = side.countP Option.isNone := by
  obtain ⟨hkey, hnone⟩ := Array.getElem?_eq_some_iff.mp h
  have hpos : 0 < side.countP Option.isNone :=
    Array.countP_pos_iff.mpr ⟨none, hnone ▸ Array.getElem_mem hkey, rfl⟩
  rw [Array.setIfInBounds_def, dif_pos hkey, Array.countP_set, hnone, Option.isNone_none,
    Option.isNone_some, if_pos rfl, if_neg Bool.false_ne_true]
  omega

theorem Colouring.numFree_paint {c : Colouring} {v : Vertex} (colour : Bool)
    (h : c.isFree v = true) : (c.paint colour v).numFree + 1 = c.numFree := by
  cases v with
  | right key =>
    have hcount := countP_setIfInBounds colour (beq_iff_eq.mp h)
    simp only [numFree, paint]
    omega
  | left key =>
    have hcount := countP_setIfInBounds colour (beq_iff_eq.mp h)
    simp only [numFree, paint]
    omega

structure Search where
  colouring : Colouring
  stack : List Vertex
  deriving DecidableEq, Repr

def Search.work (s : Search) : Nat := 2 * s.colouring.numFree + s.stack.length

def parity (perm : Array Nat) (var u : Nat) : Bool := u.testBit var != (perm.getD u 0).testBit var

def edges (perm inverse : Array Nat) (var : Nat) : Vertex → List (Nat × Vertex)
  | .right key => [key, key ||| Nat.pow 2 var].map fun u =>
      (u, .left (clearBit (perm.getD u 0) var))
  | .left key => [key, key ||| Nat.pow 2 var].map fun v =>
      (inverse.getD v 0, .right (clearBit (inverse.getD v 0) var))

def follow (perm : Array Nat) (var : Nat) (colour : Bool) (s : Search) (edge : Nat × Vertex) :
    Search :=
  if s.colouring.isFree edge.2 then
    ⟨s.colouring.paint (colour != parity perm var edge.1) edge.2, edge.2 :: s.stack⟩
  else s

def visit (perm inverse : Array Nat) (var : Nat) (v : Vertex) (s : Search) : Search :=
  (edges perm inverse var v).foldl (follow perm var ((s.colouring.colour? v).getD false)) s

theorem work_follow_le (perm : Array Nat) (var : Nat) (colour : Bool) (s : Search)
    (edge : Nat × Vertex) : (follow perm var colour s edge).work ≤ s.work := by
  unfold follow
  split
  · next hfree =>
    have hcount := Colouring.numFree_paint (colour != parity perm var edge.1) hfree
    simp only [Search.work, List.length_cons]
    omega
  · exact Nat.le_refl _

theorem work_visit_le (perm inverse : Array Nat) (var : Nat) (v : Vertex) (s : Search) :
    (visit perm inverse var v s).work ≤ s.work := by
  have hfold : ∀ (es : List (Nat × Vertex)) (colour : Bool) (s : Search),
      (es.foldl (follow perm var colour) s).work ≤ s.work := by
    intro es colour
    induction es with
    | nil => exact fun s => Nat.le_refl _
    | cons e es ih => exact fun s => Nat.le_trans (ih _) (work_follow_le ..)
  exact hfold _ _ s

def search (perm inverse : Array Nat) (var : Nat) (s : Search) : Colouring :=
  match s with
  | ⟨c, []⟩ => c
  | ⟨c, v :: stack⟩ => search perm inverse var (visit perm inverse var v ⟨c, stack⟩)
termination_by s.work
decreasing_by
  have hle := work_visit_le perm inverse var v ⟨c, stack⟩
  simp only [Search.work, List.length_cons] at hle ⊢
  omega

def colourFrom (perm inverse : Array Nat) (var : Nat) (c : Colouring) (start : Nat) : Colouring :=
  if c.isFree (.right start) then
    search perm inverse var ⟨c.paint false (.right start), [.right start]⟩
  else c

def colour (perm : Array Nat) (var : Nat) : Colouring :=
  ((List.range perm.size).filter fun key => !key.testBit var).foldl
    (colourFrom perm (Permutation.invert perm) var) (.blank perm.size)

def values (side : Array (Option Bool)) : Array Bool := side.map (·.getD false)

def decompose (perm : Array Nat) (var : Nat) : Array Bool × Array Bool :=
  let c := colour perm var
  (values c.right, values c.left)

def flip (g : Array Bool) (var x : Nat) : Nat :=
  if g.getD (clearBit x var) false then x ^^^ Nat.pow 2 var else x

def residual (perm : Array Nat) (var : Nat) (right left : Array Bool) : Array Nat :=
  (Array.range perm.size).map fun x => flip left var (perm.getD (flip right var x) 0)

def insertZero (var t : Nat) : Nat := t % Nat.pow 2 var + t / Nat.pow 2 var * Nat.pow 2 (var + 1)

def controlFunction (numVars var : Nat) (g : Array Bool) : TruthTable :=
  .tabulate (numVars - 1) fun t => g.getD (insertZero var t) false

structure Step where
  target : Nat
  function : TruthTable
  deriving DecidableEq, Repr

def stepsFrom (numVars : Nat) (perm : Array Nat) : List Nat → List Step
  | [] => []
  | var :: rest =>
    let (right, left) := decompose perm var
    ⟨var, controlFunction numVars var right⟩ ::
      stepsFrom numVars (residual perm var right left) rest ++
        [⟨var, controlFunction numVars var left⟩]

def steps (perm : Permutation) : List Step :=
  stepsFrom perm.numVars perm.values (List.range perm.numVars)

variable {α : Type} [Angle α]

def Step.circuit (numVars : Nat) (strategy : Strategy) (s : Step) :
    Except SynthesisError (List (Gate α)) :=
  if s.function.isConst0 then .ok []
  else do
    let wires := ((List.range numVars).filter (· != s.target) ++ [s.target]).toArray
    return (← SingleTarget.circuit s.function strategy).map (Gate.relabel fun w => wires.getD w 0)

def circuit (perm : Permutation) (strategy : Strategy) :
    Except SynthesisError (List (Gate α)) := do
  return (← (steps perm).mapM (Step.circuit perm.numVars strategy)).flatten

end ReversibleSynthesis.Decomposition

namespace ReversibleSynthesis

def synthesizeByDecomposition {α : Type} [Angle α] (values : List Nat) (strategy : Strategy) :
    Except SynthesisError (Netlist α) := do
  let perm ← (Permutation.ofValues values).mapError .input
  Netlist.ofCircuit "dbs" perm.numVars (← Decomposition.circuit perm strategy)

end ReversibleSynthesis
