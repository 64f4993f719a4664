import ReversibleSynthesis.Proofs.Placement

namespace ReversibleSynthesis

variable {α : Type}

namespace Gate

inductive Faulty (size : Nat) (g : Gate α) : GateError → Prop
  | qubitNotFound {q : Nat} {before after : List Nat}
      (hqubits : g.controls ++ [g.target] = before ++ q :: after)
      (hbefore : ∀ r ∈ before, r < size) (hq : size ≤ q) :
      Faulty size g (.qubitNotFound q g.name)
  | targetIsControl {c : Nat} {before after : List Nat} (halloc : ∀ q ∈ g.qubits, q < size)
      (hcontrols : g.controls = before ++ c :: after)
      (hbefore : before.Nodup ∧ g.target ∉ before) (hc : c = g.target) :
      Faulty size g (.targetIsControl c g.name)
  | duplicateQubit {c : Nat} {before after : List Nat} (halloc : ∀ q ∈ g.qubits, q < size)
      (hcontrols : g.controls = before ++ c :: after)
      (hbefore : before.Nodup ∧ g.target ∉ before) (hc : c ∈ before) :
      Faulty size g (.duplicateQubit c g.name)

section Controls

variable {name : String} {target : Nat} {seen : List Nat}

theorem controlFault?_append {before : List Nat} (rest : List Nat)
    (h : controlFault? name target seen before = none) :
    controlFault? name target seen (before ++ rest) =
      controlFault? name target (before.reverse ++ seen) rest := by
  induction before generalizing seen with
  | nil => rfl
  | cons c before ih =>
    rw [controlFault?] at h
    split at h
    · cases h
    · next htarget =>
      split at h
      · cases h
      · next hseen =>
        rw [List.cons_append, controlFault?, if_neg htarget, if_neg hseen, ih h]
        simp

theorem exists_first_of_controlFault? {cs : List Nat} {e : GateError}
    (h : controlFault? name target seen cs = some e) :
    ∃ before c after, cs = before ++ c :: after ∧
      controlFault? name target seen before = none ∧
      controlFault? name target (before.reverse ++ seen) (c :: after) = some e ∧
      (c = target ∨ c ∈ before.reverse ++ seen) := by
  induction cs generalizing seen with
  | nil => cases h
  | cons c cs ih =>
    by_cases hfault : c = target ∨ c ∈ seen
    · exact ⟨[], c, cs, rfl, rfl, h, hfault⟩
    · obtain ⟨htarget, hseen⟩ := not_or.mp hfault
      rw [controlFault?, if_neg htarget, if_neg hseen] at h
      obtain ⟨before, d, after, rfl, hnone, hfirst, hd⟩ := ih h
      refine ⟨c :: before, d, after, rfl, ?_, ?_, ?_⟩
      · rw [controlFault?, if_neg htarget, if_neg hseen, hnone]
      · simpa using hfirst
      · simpa using hd

end Controls

theorem faulty_of_fault? {size : Nat} {g : Gate α} {e : GateError} (h : g.fault? size = some e) :
    g.Faulty size e := by
  unfold fault? at h
  split at h
  · next q hfind =>
    cases h
    obtain ⟨hq, before, after, hqubits, hbefore⟩ := List.find?_eq_some_iff_append.mp hfind
    exact .qubitNotFound hqubits (by simpa using hbefore) (by simpa using hq)
  · next hfind =>
    have halloc : ∀ q ∈ g.qubits, q < size := by simpa using hfind
    obtain ⟨before, c, after, hcontrols, hnone, hfirst, hc⟩ := exists_first_of_controlFault? h
    obtain ⟨htarget, hnodup, -⟩ := (controlFault?_eq_none_iff ..).mp hnone
    rw [controlFault?] at hfirst
    split at hfirst
    · next hct =>
      cases hfirst
      exact .targetIsControl halloc hcontrols ⟨hnodup, htarget⟩ hct
    · next hct =>
      have hmem : c ∈ before.reverse ++ [] := hc.resolve_left hct
      rw [if_pos hmem] at hfirst
      cases hfirst
      exact .duplicateQubit halloc hcontrols ⟨hnodup, htarget⟩ (by simpa using hmem)

theorem Faulty.fault?_eq {size : Nat} {g : Gate α} {e : GateError} (h : g.Faulty size e) :
    g.fault? size = some e := by
  have hskip : ∀ {before after : List Nat} {c : Nat}, (∀ q ∈ g.qubits, q < size) →
      g.controls = before ++ c :: after → before.Nodup ∧ g.target ∉ before →
      g.fault? size = controlFault? g.name g.target (before.reverse ++ []) (c :: after) := by
    intro before after c halloc hcontrols hbefore
    have hnone : controlFault? g.name g.target [] before = none :=
      (controlFault?_eq_none_iff ..).mpr ⟨hbefore.2, hbefore.1, by simp⟩
    have hfind : g.qubits.find? (fun q => decide (size ≤ q)) = none := by simpa using halloc
    rw [fault?, hfind, hcontrols]
    exact controlFault?_append (c :: after) hnone
  cases h with
  | @qubitNotFound q before after hqubits hbefore hq =>
    have hfind : g.qubits.find? (fun q => decide (size ≤ q)) = some q :=
      List.find?_eq_some_iff_append.mpr
        ⟨by simpa using hq, before, after, hqubits, by simpa using hbefore⟩
    rw [fault?, hfind]
  | targetIsControl halloc hcontrols hbefore hc =>
    rw [hskip halloc hcontrols hbefore, controlFault?, if_pos hc]
  | duplicateQubit halloc hcontrols hbefore hc =>
    have htarget : _ ≠ g.target := fun heq => hbefore.2 (heq ▸ hc)
    rw [hskip halloc hcontrols hbefore, controlFault?, if_neg htarget, if_pos (by simpa using hc)]

theorem fault?_eq_some_iff {size : Nat} {g : Gate α} {e : GateError} :
    g.fault? size = some e ↔ g.Faulty size e :=
  ⟨faulty_of_fault?, Faulty.fault?_eq⟩

theorem valid_inverse [Neg α] {size : Nat} {g : Gate α} : g.inverse.Valid size ↔ g.Valid size :=
  Iff.rfl

end Gate

namespace Netlist

inductive GateCall (α : Type) where
  | apply (g : Gate α)
  | x (target : Nat)
  | cx (control target : Nat)
  | ccx (first second target : Nat)
  | mcx (controls : List Nat) (target : Nat)
  | h (target : Nat)
  | p (angle : α) (target : Nat)

def GateCall.gate : GateCall α → Gate α
  | .apply g => g
  | .x target => Gate.not target
  | .cx control target => Gate.cnot control target
  | .ccx first second target => Gate.toffoli first second target
  | .mcx controls target => Gate.mcx controls target
  | .h target => Gate.hadamard target
  | .p angle target => Gate.phase angle target

inductive Call (α : Type) where
  | addQubit
  | addRegister (name : String) (size : Nat)
  | gate (call : GateCall α)
  | inverse

def step [Neg α] (n : Netlist α) : Call α → Netlist α
  | .addQubit => n.addQubit.2
  | .addRegister name size => (n.addRegister name size).2
  | .gate call => (n.apply call.gate).toOption.getD n
  | .inverse => n.inverse

inductive Reached [Neg α] : Netlist α → Prop
  | empty (name : String) : Reached (empty name)
  | withQubits (name : String) (size : Nat) : Reached (withQubits name size)
  | step {n : Netlist α} (h : Reached n) (call : Call α) : Reached (n.step call)

structure WellFormed (n : Netlist α) : Prop where
  ids : ∀ (i : Nat) (q : Qubit), n.qubits[i]? = some q → q.id = i
  gates : ∀ g ∈ n.gates, g.Valid n.numQubits

theorem apply_eq_ok_iff {n n' : Netlist α} {g : Gate α} :
    n.apply g = .ok n' ↔ g.Valid n.numQubits ∧ n' = { n with gates := n.gates ++ [g] } := by
  rw [← Gate.fault?_eq_none_iff, apply]
  cases g.fault? n.numQubits with
  | none => simp [eq_comm]
  | some e => simp

theorem apply_eq_error_iff {n : Netlist α} {g : Gate α} {e : GateError} :
    n.apply g = .error e ↔ g.Faulty n.numQubits e := by
  rw [← Gate.fault?_eq_some_iff, apply]
  cases g.fault? n.numQubits with
  | none => simp
  | some e => simp

theorem WellFormed.empty (name : String) : (empty name : Netlist α).WellFormed :=
  ⟨nofun, nofun⟩

theorem WellFormed.allocate {n : Netlist α} (h : n.WellFormed) {fresh : List Qubit}
    (hfresh : ∀ (j : Nat) (q : Qubit), fresh[j]? = some q → q.id = n.numQubits + j) :
    { n with qubits := n.qubits ++ fresh }.WellFormed := by
  constructor
  · intro i q hq
    rcases Nat.lt_or_ge i n.qubits.length with hi | hi
    · rw [List.getElem?_append_left hi] at hq
      exact h.ids i q hq
    · rw [List.getElem?_append_right hi] at hq
      rw [hfresh _ q hq, numQubits]
      omega
  · intro g hg
    exact (h.gates g hg).mono (by simp [numQubits])

theorem id_of_getElem?_map_range {f : Nat → Qubit} {size first j : Nat} {q : Qubit}
    (hf : ∀ i, (f i).id = first + i) (hq : ((List.range size).map f)[j]? = some q) :
    q.id = first + j := by
  rw [List.getElem?_map, Option.map_eq_some_iff] at hq
  obtain ⟨i, hi, rfl⟩ := hq
  obtain ⟨hj, rfl⟩ := List.getElem?_eq_some_iff.mp hi
  rw [hf, List.getElem_range]

theorem WellFormed.withQubits (name : String) (size : Nat) :
    (withQubits name size : Netlist α).WellFormed :=
  (WellFormed.empty name).allocate fun _ _ hq =>
    id_of_getElem?_map_range (fun i => (Nat.zero_add i).symm) hq

section Step

variable [Neg α] {n : Netlist α}

theorem step_gate_of_valid {call : GateCall α} (h : call.gate.Valid n.numQubits) :
    n.step (.gate call) = { n with gates := n.gates ++ [call.gate] } := by
  rw [step, apply_eq_ok_iff.mpr ⟨h, rfl⟩]
  rfl

theorem step_gate_of_not_valid {call : GateCall α} (h : ¬ call.gate.Valid n.numQubits) :
    n.step (.gate call) = n := by
  cases happly : n.apply call.gate with
  | ok n' => exact absurd (apply_eq_ok_iff.mp happly).1 h
  | error e =>
    rw [step, happly]
    rfl

theorem WellFormed.step (h : n.WellFormed) (call : Call α) : (n.step call).WellFormed := by
  cases call with
  | addQubit =>
    refine h.allocate fun j q hq => ?_
    rw [List.getElem?_singleton] at hq
    split at hq
    · next hj =>
      cases hq
      rw [hj, Nat.add_zero]
    · cases hq
  | addRegister name size =>
    exact h.allocate fun _ _ hq => id_of_getElem?_map_range (fun _ => rfl) hq
  | gate call =>
    by_cases hvalid : call.gate.Valid n.numQubits
    · rw [step_gate_of_valid hvalid]
      refine ⟨h.ids, fun g hg => ?_⟩
      rcases List.mem_append.mp hg with hg | hg
      · exact h.gates g hg
      · rw [List.mem_singleton.mp hg]
        exact hvalid
    · rwa [step_gate_of_not_valid hvalid]
  | inverse =>
    refine ⟨h.ids, fun g hg => ?_⟩
    obtain ⟨g, hmem, rfl⟩ := List.mem_map.mp (List.mem_reverse.mp hg)
    exact Gate.valid_inverse.mpr (h.gates g hmem)

theorem Reached.wellFormed (h : n.Reached) : n.WellFormed := by
  induction h with
  | empty name => exact .empty name
  | withQubits name size => exact .withQubits name size
  | step _ call ih => exact ih.step call

theorem Reached.foldl (h : n.Reached) (calls : List (Call α)) :
    (calls.foldl Netlist.step n).Reached := by
  induction calls generalizing n with
  | nil => exact h
  | cons call calls ih => exact ih (h.step call)

theorem apply_exact_of_reached (h : n.Reached) :
    (∀ (i : Nat) (q : Qubit), n.qubits[i]? = some q → q.id = i) ∧
    (∀ g ∈ n.gates, g.Valid n.numQubits) ∧
    (∀ (g : Gate α) (n' : Netlist α), n.apply g = .ok n' ↔
      g.Valid n.numQubits ∧ n' = { n with gates := n.gates ++ [g] }) ∧
    (∀ (g : Gate α) (e : GateError), n.apply g = .error e ↔ g.Faulty n.numQubits e) ∧
    ∀ call : GateCall α,
      (call.gate.Valid n.numQubits →
        n.step (.gate call) = { n with gates := n.gates ++ [call.gate] }) ∧
      (¬ call.gate.Valid n.numQubits → n.step (.gate call) = n) :=
  ⟨h.wellFormed.ids, h.wellFormed.gates, fun _ _ => apply_eq_ok_iff, fun _ _ => apply_eq_error_iff,
    fun _ => ⟨step_gate_of_valid, step_gate_of_not_valid⟩⟩

end Step

def refusedOnce : Netlist Float :=
  [Call.addRegister "spare" 2, .gate (.ccx 0 3 1), .gate (.cx 4 0), .gate (.p 0.5 2), .inverse,
    .gate (.mcx [0, 2, 3] 1)].foldl step (withQubits "register" 2)

theorem apply_exact_of_reached_refusedOnce :
    refusedOnce.Reached ∧ refusedOnce.numQubits = 4 ∧ refusedOnce.numGates = 3 ∧
    (∀ g ∈ refusedOnce.gates, g.Valid 4) ∧
    refusedOnce.apply (.mcx [3, 1, 3, 7] 1) = .error (.qubitNotFound 7 "mcx") ∧
    refusedOnce.apply (.mcx [3, 0, 3, 1] 1) = .error (.duplicateQubit 3 "mcx") ∧
    refusedOnce.step (.gate (.mcx [3, 1, 3, 7] 1)) = refusedOnce := by
  have hreached : refusedOnce.Reached := Reached.foldl (.withQubits "register" 2) _
  obtain ⟨_, hgates, _, herror, hstep⟩ := apply_exact_of_reached hreached
  refine ⟨hreached, rfl, rfl, hgates, ?_, ?_, (hstep _).2 ?_⟩
  · exact (herror _ _).mpr
      (@Gate.Faulty.qubitNotFound _ 4 (.mcx [3, 1, 3, 7] 1) 7 [3, 1, 3] [1] rfl (by decide) (by decide))
  · exact (herror _ _).mpr
      (@Gate.Faulty.duplicateQubit _ 4 (.mcx [3, 0, 3, 1] 1) 3 [3, 0] [1] (by decide) rfl (by decide)
        (by decide))
  · intro hvalid
    exact absurd (hvalid.1 7 (by decide)) (by decide)

end Netlist

end ReversibleSynthesis
