import ReversibleSynthesis.Proofs.Elimination
import ReversibleSynthesis.Proofs.ParityTerms
import ReversibleSynthesis.Synthesis.Phase

namespace ReversibleSynthesis

variable {α : Type} [Angle α]

namespace ParityTerms

def active (ts : ParityTerms α) : List (ParityTerm α) :=
  ts.terms.filter fun t => t.mask != 0 && !Angle.isZero t.angle

end ParityTerms

namespace PhasePolynomial

theorem tracks_start (width : Nat) {ts : ParityTerms α}
    (hmask : ∀ t ∈ ts.terms, t.mask < 2 ^ width) :
    Sweep.Tracks (ts.active.map fun t => (t.angle, dot width t.mask))
      (Sweep.start width ts.terms) := by
  have hterms : (Sweep.start width ts.terms).terms.toList =
      ts.active.map fun t => ⟨t.mask, t.angle, false⟩ := by
    simp [Sweep.start, ParityTerms.active]
  have hgates : (Sweep.start width ts.terms).gates.toList = [] := rfl
  constructor
  · exact nofun
  · simp [Sweep.start]
  · intro q hq x
    have hrow : (Sweep.start width ts.terms).parities.getD q 0 = 2 ^ q := by
      have hq' : q < width := hq
      simp [Sweep.start, Array.getD, hq']
    rw [hrow, dot_two_pow hq]
    rfl
  · intro p hp
    rw [hterms] at hp
    obtain ⟨t, ht, rfl⟩ := List.mem_map.mp hp
    obtain ⟨hmem, hactive⟩ := List.mem_filter.mp ht
    simp only [Bool.and_eq_true, bne_iff_ne] at hactive
    exact ⟨hactive.1, hmask t hmem⟩
  · rw [hterms, List.map_map]
    rfl
  · rw [hterms, hgates]
    simp [readings]

theorem circuit_elementary {width : Nat} {ts : ParityTerms α}
    (hmask : ∀ t ∈ ts.terms, t.mask < 2 ^ width) :
    ∀ g ∈ circuit width ts, Elementary width g := by
  have h := tracks_start width hmask
  have hwidth : (Sweep.start width ts.terms).finished.width = width := by
    rw [(Sweep.finished_spec h).1.width, (Sweep.folded_reaches _).width]
    rfl
  intro g hg
  exact hwidth ▸ h.finished.elementary g hg

omit [Angle α] in
theorem Elementary.relabel {width : Nat} {f : Nat → Nat} {g : Gate α} {qubits : List Nat}
    (h : Elementary width g) (hf : Function.Injective f) (hmem : ∀ i < width, f i ∈ qubits) :
    (∃ angle, ∃ q ∈ qubits, g.relabel f = Gate.phase angle q) ∨
      ∃ c ∈ qubits, ∃ t ∈ qubits, c ≠ t ∧ g.relabel f = Gate.cnot c t := by
  rcases h with ⟨angle, q, hq, rfl⟩ | ⟨c, hc, t, ht, hct, rfl⟩
  · exact .inl ⟨angle, f q, hmem q hq, rfl⟩
  · exact .inr ⟨f c, hmem c hc, f t, hmem t ht, hf.ne hct, rfl⟩

theorem after_circuit {width : Nat} {ts : ParityTerms α}
    (hmask : ∀ t ∈ ts.terms, t.mask < 2 ^ width) (s : State) : after (circuit width ts) s = s :=
  Sweep.after_finished (tracks_start width hmask) s

theorem readings_circuit {width : Nat} {ts : ParityTerms α}
    (hmask : ∀ t ∈ ts.terms, t.mask < 2 ^ width) :
    (readings (circuit width ts)).Perm (ts.active.map fun t => (t.angle, dot width t.mask)) :=
  Sweep.readings_finished (tracks_start width hmask)

end PhasePolynomial

theorem ParityTerms.appendTo_exact {terms : ParityTerms α} (hb : terms.Built) (n : Netlist α)
    {qubits : List Nat} (hlen : qubits.length ≤ 64) (hnodup : qubits.Nodup)
    (halloc : ∀ q ∈ qubits, q < n.numQubits) (hvars : terms.numVars ≤ qubits.length) :
    ∃ gs : List (Gate α),
      terms.appendTo n qubits = ({ n with gates := n.gates ++ gs }, none) ∧
      (∀ g ∈ gs, (∃ angle, ∃ q ∈ qubits, g = Gate.phase angle q) ∨
        ∃ c ∈ qubits, ∃ t ∈ qubits, c ≠ t ∧ g = Gate.cnot c t) ∧
      (∀ s, (runGates (gs.filter Gate.isClassical) s).1 = s) ∧
      (readings gs).Perm (terms.active.map fun t =>
        (t.angle, fun s =>
          oddOverlap maxVars t.mask (packBits (fun i => s (qubits.getD i 0)) qubits.length))) := by
  have hmask : ∀ t ∈ terms.terms, t.mask < 2 ^ qubits.length := fun t ht =>
    Nat.lt_of_lt_of_le (hb.narrow.2 t ht) (Nat.pow_le_pow_right (by omega) hvars)
  have helem := PhasePolynomial.circuit_elementary hmask
  obtain ⟨f, hf, hfq, hplace⟩ :=
    Netlist.place_of_valid hnodup halloc fun g hg => (helem g hg).valid
  have hmem : ∀ i < qubits.length, f i ∈ qubits := fun i hi => hfq i hi ▸ List.getElem_mem hi
  refine ⟨(PhasePolynomial.circuit qubits.length terms).map (Gate.relabel f), ?_, ?_, ?_, ?_⟩
  · rw [appendTo, if_neg (by simpa [maxVars] using hlen), if_neg (by omega)]
    exact hplace
  · intro g hg
    obtain ⟨g, hcircuit, rfl⟩ := List.mem_map.mp hg
    exact (helem g hcircuit).relabel hf hmem
  · intro s
    change after _ s = s
    rw [after_filter_classical]
    exact after_relabel_eq_self hf (PhasePolynomial.after_circuit hmask) s
  · rw [readings_relabel hf]
    refine ((PhasePolynomial.readings_circuit hmask).map _).trans (List.Perm.of_eq ?_)
    rw [List.map_map]
    refine List.map_congr_left fun t _ => ?_
    refine congrArg (Prod.mk t.angle) (funext fun s => ?_)
    rw [oddOverlap_packBits (by simpa [maxVars] using hlen)]
    apply dot_congr
    intro i hi
    simp [hfq i hi, hi]

def overlappingTerms : ParityTerms Float := ⟨some 3, [⟨3, 0.5⟩, ⟨6, 0.25⟩], [(6, 1), (3, 0)]⟩

theorem ParityTerms.appendTo_exact_overlapping :
    overlappingTerms.Built ∧ [4, 0, 2].Nodup ∧ (∀ q ∈ [4, 0, 2], q < 5) ∧
    ∃ gs : List (Gate Float),
      overlappingTerms.appendTo (.withQubits "register" 5) [4, 0, 2] =
        (⟨"register", (Netlist.withQubits "register" 5 : Netlist Float).qubits, gs⟩, none) ∧
      (∀ g ∈ gs, (∃ angle, ∃ q ∈ [4, 0, 2], g = Gate.phase angle q) ∨
        ∃ c ∈ [4, 0, 2], ∃ t ∈ [4, 0, 2], c ≠ t ∧ g = Gate.cnot c t) ∧
      (∀ s, (runGates (gs.filter Gate.isClassical) s).1 = s) ∧
      (readings gs).Perm (overlappingTerms.active.map fun t =>
        (t.angle, fun s =>
          oddOverlap maxVars t.mask (packBits (fun i => s ([4, 0, 2].getD i 0)) 3))) := by
  have hfirst : (⟨some 3, [⟨3, 0.5⟩], [(3, 0)]⟩ : ParityTerms Float).Built :=
    .addTerm (.withNumVars (n := 3) rfl) 3 0.5 rfl
  have hbuilt : overlappingTerms.Built := .addTerm hfirst 6 0.25 rfl
  exact ⟨hbuilt, by decide, by decide,
    appendTo_exact hbuilt (.withQubits "register" 5) (by decide) (by decide) (by decide) (by decide)⟩

end ReversibleSynthesis
