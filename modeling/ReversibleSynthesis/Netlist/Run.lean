import ReversibleSynthesis.Netlist

namespace ReversibleSynthesis

abbrev State := Nat → Bool

def State.flip (s : State) (q : Nat) : State := fun r => if r = q then !s q else s r

namespace Gate

variable {α : Type}

def enabled (g : Gate α) (s : State) : Bool := g.controls.all s

def act (g : Gate α) (s : State) : State :=
  match g.operation with
  | .x => if g.enabled s then s.flip g.target else s
  | _ => s

def fired? (g : Gate α) (s : State) : Option α :=
  match g.operation with
  | .p angle => if g.enabled s && s g.target then some angle else none
  | _ => none

end Gate

def runGates {α : Type} : List (Gate α) → State → State × List α
  | [], s => (s, [])
  | g :: gs, s =>
      let (final, angles) := runGates gs (g.act s)
      (final, (g.fired? s).toList ++ angles)

def Netlist.run {α : Type} (n : Netlist α) (s : State) : State × List α := runGates n.gates s

theorem runGates_append {α : Type} (gs hs : List (Gate α)) (s : State) :
    runGates (gs ++ hs) s =
      ((runGates hs (runGates gs s).1).1,
        (runGates gs s).2 ++ (runGates hs (runGates gs s).1).2) := by
  induction gs generalizing s with
  | nil => simp [runGates]
  | cons g gs ih => simp [runGates, ih]

end ReversibleSynthesis
