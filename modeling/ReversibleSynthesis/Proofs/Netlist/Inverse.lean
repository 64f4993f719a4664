import ReversibleSynthesis.Proofs.Netlist

namespace ReversibleSynthesis

variable {α : Type} [Neg α]

namespace Gate

theorem act_inverse (g : Gate α) (s : State) : g.inverse.act s = g.act s := by
  obtain ⟨op, controls, target⟩ := g
  cases op with
  | x => rfl
  | h => rfl
  | p angle => rfl

theorem fired?_inverse (g : Gate α) (s : State) :
    g.inverse.fired? s = (g.fired? s).map (- ·) := by
  obtain ⟨op, controls, target⟩ := g
  cases op with
  | x => rfl
  | h => rfl
  | p angle =>
    exact (apply_ite (Option.map (- ·)) ((controls.all s && s target) = true) (some angle) none).symm

omit [Neg α] in
theorem fired?_act (g : Gate α) (s : State) : g.fired? (g.act s) = g.fired? s := by
  obtain ⟨op, controls, target⟩ := g
  cases op with
  | x => rfl
  | h => rfl
  | p angle => rfl

theorem run_inverse_after {g : Gate α} (h : g.target ∉ g.controls) (s : State) :
    runGates [g.inverse] (g.act s) = (s, ((g.fired? s).map (- ·)).toList) := by
  rw [runGates_cons, runGates, act_inverse, act_act g h, fired?_inverse, fired?_act, List.append_nil]

end Gate

theorem runGates_inverse {gs : List (Gate α)} (h : ∀ g ∈ gs, g.target ∉ g.controls) (s : State) :
    runGates (gs.map Gate.inverse).reverse (runGates gs s).1 =
      (s, ((runGates gs s).2.map (- ·)).reverse) := by
  induction gs generalizing s with
  | nil => rfl
  | cons g gs ih =>
    obtain ⟨hg, hgs⟩ := List.forall_mem_cons.mp h
    rw [runGates_cons, List.map_cons, List.reverse_cons, runGates_append, ih hgs,
      Gate.run_inverse_after hg, List.map_append, List.reverse_append]
    cases g.fired? s with
    | none => rfl
    | some angle => rfl

namespace Netlist

theorem WellFormed.run_inverse {n : Netlist α} (h : n.WellFormed) (s : State) :
    n.inverse.run (n.run s).1 = (s, ((n.run s).2.map (- ·)).reverse) :=
  runGates_inverse (fun g hg => (h.gates g hg).target_notMem) s

theorem inverse_undoes_run {n : Netlist α} (h : n.Reached) {s s' : State} {angles : List α}
    (hrun : n.run s = (s', angles)) :
    n.inverse.run s' = (s, (angles.map (- ·)).reverse) ∧
    n.inverse.qubits = n.qubits ∧ n.inverse.WellFormed := by
  have hback := h.wellFormed.run_inverse s
  rw [hrun] at hback
  exact ⟨hback, rfl, h.wellFormed.step .inverse⟩

def phasesBetweenFlips : Netlist Float :=
  [Call.gate (.x 0), .gate (.apply ⟨.p 0.5, [0], 1⟩), .gate (.mcx [0, 3] 1), .gate (.ccx 0 1 2),
    .gate (.p 0.25 2), .gate (.cx 2 0)].foldl step (withQubits "phases" 3)

theorem inverse_undoes_run_phasesBetweenFlips :
    phasesBetweenFlips.Reached ∧
    phasesBetweenFlips.run (· == 1) = (fun q => q == 1 || q == 2, [0.5, 0.25]) ∧
    phasesBetweenFlips.inverse.run (fun q => q == 1 || q == 2) = ((· == 1), [-0.25, -0.5]) := by
  have hreached : phasesBetweenFlips.Reached := Reached.foldl (.withQubits "phases" 3) _
  have hrun : phasesBetweenFlips.run (· == 1) = (fun q => q == 1 || q == 2, [0.5, 0.25]) := by
    refine Prod.ext (funext fun q => ?_) rfl
    rcases q with _ | _ | _ | q <;> rfl
  exact ⟨hreached, hrun, (inverse_undoes_run hreached hrun).1⟩

end Netlist

end ReversibleSynthesis
