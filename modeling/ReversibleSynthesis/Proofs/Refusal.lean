import ReversibleSynthesis.Proofs.Netlist
import ReversibleSynthesis.Proofs.Spectrum

namespace ReversibleSynthesis

variable {α : Type}

namespace Netlist

def Intact (n : Netlist α) (result : Netlist α × Option SynthesisError) : Prop :=
  result.2 ≠ none → result.1 = n

def wired (qubits : List Nat) (circuit : List (Gate α)) : List (Gate α) :=
  circuit.map (Gate.relabel fun w => qubits.toArray.getD w 0)

def StopsAtOnce (n : Netlist α) (gs : List (Gate α)) : Prop :=
  (∀ g ∈ gs, g.Valid n.numQubits) ∨ ∃ g ∈ gs.head?, ¬ g.Valid n.numQubits

theorem Intact.refused (n : Netlist α) (e : SynthesisError) : n.Intact (n, some e) := fun _ => rfl

theorem Intact.done (n n' : Netlist α) : n.Intact (n', none) := fun h => absurd rfl h

theorem extend_cases (n : Netlist α) (gs : List (Gate α)) :
    (∀ g ∈ gs, g.Valid n.numQubits) ∧ n.extend gs = ({ n with gates := n.gates ++ gs }, none) ∨
    ∃ before g after e, gs = before ++ g :: after ∧ (∀ b ∈ before, b.Valid n.numQubits) ∧
      g.Faulty n.numQubits e ∧ n.extend gs = ({ n with gates := n.gates ++ before }, some e) := by
  cases hfirst : gs.findSome? (fun g => g.fault? n.numQubits) with
  | none =>
    have hvalid : ∀ g ∈ gs, g.Valid n.numQubits := fun g hg =>
      (g.fault?_eq_none_iff _).mp (List.findSome?_eq_none_iff.mp hfirst g hg)
    exact .inl ⟨hvalid, extend_of_valid hvalid⟩
  | some e =>
    obtain ⟨before, g, after, rfl, hg, hbefore⟩ := List.findSome?_eq_some_iff.mp hfirst
    have htake : (before ++ g :: after).takeWhile (fun g => (g.fault? n.numQubits).isNone) =
        before := by
      rw [List.takeWhile_append_of_pos fun b hb => by simp [hbefore b hb],
        List.takeWhile_cons_of_neg (by simp [hg]), List.append_nil]
    refine .inr ⟨before, g, after, e, rfl, fun b hb => ?_, Gate.faulty_of_fault? hg, ?_⟩
    · exact (b.fault?_eq_none_iff _).mp (hbefore b hb)
    · simp only [extend, htake, hfirst]

theorem intact_place_iff (n : Netlist α) (qubits : List Nat) (circuit : List (Gate α)) :
    n.Intact (n.place qubits circuit) ↔ n.StopsAtOnce (wired qubits circuit) := by
  rcases n.extend_cases (wired qubits circuit) with
    ⟨hvalid, hextend⟩ | ⟨before, g, after, e, hsplit, hbefore, hfaulty, hextend⟩
  · have hplace : n.place qubits circuit =
        ({ n with gates := n.gates ++ wired qubits circuit }, none) := by
      rw [place, ← wired, hextend]
      rfl
    rw [hplace]
    exact iff_of_true (.done n _) (.inl hvalid)
  · have hplace : n.place qubits circuit =
        ({ n with gates := n.gates ++ before }, some (.gate e)) := by
      rw [place, ← wired, hextend]
      rfl
    have hg : ¬ g.Valid n.numQubits := by
      rw [← Gate.fault?_eq_none_iff, hfaulty.fault?_eq]
      exact Option.some_ne_none e
    rw [hplace, hsplit]
    cases before with
    | nil => exact iff_of_true (by simp [Intact]) (.inr ⟨g, rfl, hg⟩)
    | cons b before =>
      refine iff_of_false (fun hintact => ?_) (fun hstops => ?_)
      · have hgates := congrArg Netlist.gates (hintact (Option.some_ne_none _))
        simp at hgates
      · rcases hstops with hvalid | ⟨b', hb', hnot⟩
        · exact hg (hvalid g (by simp))
        · cases hb'
          exact hnot (hbefore b (by simp))

theorem stopsAtOnce_of_valid {n : Netlist α} {qubits : List Nat} {circuit : List (Gate α)}
    (hnodup : qubits.Nodup) (halloc : ∀ q ∈ qubits, q < n.numQubits)
    (hcircuit : ∀ g ∈ circuit, g.Valid qubits.length) : n.StopsAtOnce (wired qubits circuit) := by
  rw [← intact_place_iff, place_eq_of_valid hnodup halloc hcircuit]
  exact .done n _

end Netlist

open Netlist

variable [Angle α]

theorem SingleTarget.valid_of_circuit {f : TruthTable} {strategy : Strategy} {gates : List (Gate α)}
    (h : circuit f strategy = .ok gates) : ∀ g ∈ gates, g.Valid (f.numVars + 1) := by
  have hexpansion : strategy = .pkrm ∨ strategy = .pprm ∧ f.numVars ≤ Strategy.maxPolarityVars →
      ∀ g ∈ gates, g.Valid (f.numVars + 1) := by
    intro hs g hg
    obtain ⟨gates', hok, hfits, -⟩ := circuit_spec (α := α) (f := f) hs
    cases h.symm.trans hok
    exact (hfits g hg).2
  cases strategy with
  | spectrum =>
    cases h
    exact valid_spectrum f
  | pkrm => exact hexpansion (.inl rfl)
  | pprm =>
    refine hexpansion (.inr ⟨rfl, Nat.not_lt.mp fun hlarge => ?_⟩)
    rw [circuit, if_pos hlarge] at h
    cases h

theorem SingleTarget.intact_embed_iff (strategy : Strategy) (f : TruthTable) (n : Netlist α)
    (qubits : List Nat) :
    n.Intact (embed strategy f n qubits) ↔ (qubits.length = f.numVars + 1 →
      ∀ gates, circuit f strategy = .ok gates → n.StopsAtOnce (wired qubits gates)) := by
  by_cases hlen : qubits.length = f.numVars + 1
  · rw [embed, if_neg (not_not_intro hlen)]
    cases circuit (α := α) f strategy with
    | error e =>
      refine iff_of_true (.refused n e) fun _ gates hgates => ?_
      cases hgates
    | ok gates =>
      simp only [intact_place_iff, hlen, forall_const, Except.ok.injEq, forall_eq']
  · rw [embed, if_pos hlen]
    exact iff_of_true (.refused n _) fun h => absurd h hlen

theorem ParityTerms.intact_appendTo_iff (terms : ParityTerms α) (n : Netlist α)
    (qubits : List Nat) :
    n.Intact (terms.appendTo n qubits) ↔
      (qubits.length ≤ maxVars → terms.numVars ≤ qubits.length →
        n.StopsAtOnce (wired qubits (PhasePolynomial.circuit qubits.length terms))) := by
  rw [appendTo]
  split
  · next hmany => exact iff_of_true (.refused n _) fun h => absurd h (Nat.not_le.mpr hmany)
  · next hmany =>
    split
    · next hfew => exact iff_of_true (.refused n _) fun _ h => absurd h (Nat.not_le.mpr hfew)
    · next hfew =>
      rw [intact_place_iff]
      simp only [Nat.not_lt.mp hmany, Nat.not_lt.mp hfew, forall_const]

theorem intact_iff_stopsAtOnce (n : Netlist α) (qubits : List Nat) :
    (∀ (strategy : Strategy) (f : TruthTable),
      n.Intact (SingleTarget.embed strategy f n qubits) ↔ (qubits.length = f.numVars + 1 →
        ∀ gates, SingleTarget.circuit f strategy = .ok gates →
          n.StopsAtOnce (wired qubits gates))) ∧
    (∀ terms : ParityTerms α,
      n.Intact (terms.appendTo n qubits) ↔ (qubits.length ≤ 64 → terms.numVars ≤ qubits.length →
        n.StopsAtOnce (wired qubits (PhasePolynomial.circuit qubits.length terms)))) ∧
    (qubits.Nodup → (∀ q ∈ qubits, q < n.numQubits) →
      (∀ (strategy : Strategy) (f : TruthTable),
        n.Intact (SingleTarget.embed strategy f n qubits)) ∧
      ∀ terms : ParityTerms α, terms.Built → n.Intact (terms.appendTo n qubits)) := by
  refine ⟨fun strategy f => SingleTarget.intact_embed_iff strategy f n qubits,
    fun terms => terms.intact_appendTo_iff n qubits, fun hnodup halloc => ⟨?_, ?_⟩⟩
  · intro strategy f
    rw [SingleTarget.intact_embed_iff]
    intro hlen gates hgates
    exact stopsAtOnce_of_valid hnodup halloc (hlen ▸ SingleTarget.valid_of_circuit hgates)
  · intro terms hbuilt
    rw [terms.intact_appendTo_iff]
    intro _ hvars
    have hmask : ∀ t ∈ terms.terms, t.mask < 2 ^ qubits.length := fun t ht =>
      Nat.lt_of_lt_of_le (hbuilt.narrow.2 t ht) (Nat.pow_le_pow_right (by omega) hvars)
    exact stopsAtOnce_of_valid hnodup halloc fun g hg =>
      (PhasePolynomial.circuit_elementary hmask g hg).valid

def notBoth : TruthTable := ⟨2, #[7]⟩

theorem embed_not_intact_of_repeated_control :
    SingleTarget.embed .pkrm notBoth (.withQubits "embed" 3 : Netlist Float) [0, 0, 2] =
      ({ (.withQubits "embed" 3 : Netlist Float) with gates := [Gate.not 2] },
        some (.gate (.duplicateQubit 0 "ccx"))) ∧
    ¬ Netlist.Intact (.withQubits "embed" 3 : Netlist Float)
      (SingleTarget.embed .pkrm notBoth (.withQubits "embed" 3) [0, 0, 2]) := by
  have hembed : SingleTarget.embed .pkrm notBoth (.withQubits "embed" 3 : Netlist Float) [0, 0, 2] =
      ({ (.withQubits "embed" 3 : Netlist Float) with gates := [Gate.not 2] },
        some (.gate (.duplicateQubit 0 "ccx"))) := by
    have hexpansion : notBoth.expansion 0 = #[true, false, false, true] := by decide +kernel
    have hcircuit : SingleTarget.circuit notBoth .pkrm =
        .ok (SingleTarget.products 2 #[true, false, false, true] : List (Gate Float)) :=
      congrArg (fun c => Except.ok (SingleTarget.products 2 c)) hexpansion
    rw [SingleTarget.embed, hcircuit]
    rfl
  refine ⟨hembed, fun hintact => ?_⟩
  rw [hembed] at hintact
  exact List.cons_ne_nil _ _ (congrArg Netlist.gates (hintact (Option.some_ne_none _)))

end ReversibleSynthesis
