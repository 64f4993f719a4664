import Mathlib.Analysis.Real.Pi.Bounds
import ReversibleSynthesis.Proofs.Amplitude
import ReversibleSynthesis.Proofs.PhaseFunction
import ReversibleSynthesis.Proofs.SingleTarget

namespace ReversibleSynthesis.SingleTarget

open Finset

noncomputable def targetPhase (f : TruthTable) (z : Nat) : ℝ :=
  if 2 ^ f.numVars ≤ z ∧ f.bit (z - 2 ^ f.numVars) = true then Real.pi else 0

noncomputable def spectralCoefficient (f : TruthTable) (m : Nat) : ℝ :=
  (∑ z ∈ range (2 ^ (f.numVars + 1)),
    (-1) ^ weight (f.numVars + 1) (z &&& m) * targetPhase f z) / (2 ^ (f.numVars + 1) : ℕ)

noncomputable def spectralMasks (f : TruthTable) : List Nat :=
  (List.range (2 ^ (f.numVars + 1))).filter fun m => m ≠ 0 ∧ spectralCoefficient f m ≠ 0

theorem valueAt_phases (f : TruthTable) (s : State) :
    (phases f : Cube ℝ (f.numVars + 1)).valueAt s =
      if s f.numVars && f.bit (packBits s f.numVars) then Real.pi else 0 := by
  rw [phases, Cube.valueAt, Cube.valueAt_map, Cube.valueAt_map, valueAt_cube]
  cases s f.numVars with
  | false => rfl
  | true => rfl

theorem get_phases (f : TruthTable) {z : Nat} (hz : z < 2 ^ (f.numVars + 1)) :
    (phases f : Cube ℝ (f.numVars + 1)).get z = targetPhase f z := by
  rw [Cube.get_eq_valueAt, valueAt_phases, targetPhase]
  by_cases hle : 2 ^ f.numVars ≤ z
  · obtain ⟨x, rfl⟩ := Nat.exists_eq_add_of_le hle
    have hx : x < 2 ^ f.numVars := by
      rw [Nat.pow_succ] at hz
      omega
    have hlow : packBits (2 ^ f.numVars + x).testBit f.numVars = x :=
      packBits_eq hx fun i hi => Nat.testBit_two_pow_add_gt hi x
    rw [hlow, Nat.testBit_two_pow_add_eq, Nat.testBit_lt_two_pow hx]
    simp
  · rw [Nat.testBit_lt_two_pow (not_le.mp hle)]
    simp [hle]

theorem maskAngle_phases (f : TruthTable) (m : Nat) :
    (phases f).maskAngle m = -2 * spectralCoefficient f m := by
  have hsum : (phases f : Cube ℝ (f.numVars + 1)).walsh.get m =
      ∑ z ∈ range (2 ^ (f.numVars + 1)),
        (-1) ^ weight (f.numVars + 1) (z &&& m) * targetPhase f z := by
    rw [Cube.get_eq_valueAt, Cube.valueAt_walsh]
    refine sum_congr rfl fun z hz => ?_
    rw [Cube.neg_one_pow_weight, get_phases f (mem_range.mp hz)]
  rw [Cube.maskAngle_eq, hsum, spectralCoefficient, mul_div_assoc, Nat.cast_pow, Nat.cast_ofNat]

theorem exists_int_mul_pi (f : TruthTable) (m : Nat) :
    ∃ k : ℤ, spectralCoefficient f m = k * Real.pi / 2 ^ (f.numVars + 1) := by
  have hterm : ∀ z, ∃ k : ℤ,
      (-1) ^ weight (f.numVars + 1) (z &&& m) * targetPhase f z = k * Real.pi := by
    intro z
    rw [targetPhase]
    split
    · exact ⟨(-1) ^ weight (f.numVars + 1) (z &&& m), by push_cast; rfl⟩
    · exact ⟨0, by simp⟩
  obtain ⟨k, hk⟩ : ∃ k : ℤ, ∑ z ∈ range (2 ^ (f.numVars + 1)),
      (-1) ^ weight (f.numVars + 1) (z &&& m) * targetPhase f z = k * Real.pi := by
    refine sum_induction _ (fun a => ∃ k : ℤ, a = k * Real.pi) ?_ ⟨0, by simp⟩ fun z _ => hterm z
    rintro _ _ ⟨k, rfl⟩ ⟨l, rfl⟩
    exact ⟨k + l, by push_cast; ring⟩
  exact ⟨k, by rw [spectralCoefficient, hk, Nat.cast_pow, Nat.cast_ofNat]⟩

theorem cutoff_le_abs_maskAngle {f : TruthTable} (hf : f.numVars ≤ 20) {m : Nat}
    (hne : (phases f).maskAngle m ≠ 0) : cutoff ≤ |(phases f).maskAngle m| := by
  obtain ⟨k, hk⟩ := exists_int_mul_pi f m
  have hangle : (phases f).maskAngle m = -2 * (k * Real.pi / 2 ^ (f.numVars + 1)) := by
    rw [maskAngle_phases, hk]
  have hone : (1 : ℝ) ≤ |(k : ℝ)| := by
    have hk0 : k ≠ 0 := by
      rintro rfl
      exact hne (by rw [hangle]; simp)
    exact_mod_cast Int.one_le_abs hk0
  have hsize : (2 : ℝ) ^ (f.numVars + 1) ≤ 2 ^ 21 := pow_le_pow_right₀ (by norm_num) (by omega)
  have hpi : 3 ≤ |(k : ℝ)| * Real.pi := by nlinarith [Real.pi_gt_three]
  calc cutoff ≤ 2 * (3 / 2 ^ 21) := by norm_num [cutoff]
    _ ≤ 2 * (|(k : ℝ)| * Real.pi / 2 ^ (f.numVars + 1)) := by gcongr
    _ = |(phases f).maskAngle m| := by
      rw [hangle, abs_mul, abs_div, abs_mul, abs_of_pos Real.pi_pos]
      norm_num

theorem keptSum_phases {f : TruthTable} (hf : f.numVars ≤ 20) (s : State) :
    (phases f).keptSum s =
      if s f.numVars && f.bit (packBits s f.numVars) then Real.pi else 0 := by
  rw [Cube.keptSum_eq _ (fun m _ hne => cutoff_le_abs_maskAngle hf hne), valueAt_phases,
    valueAt_phases, Bool.false_and, if_neg Bool.false_ne_true, sub_zero]

theorem keeps_phases {f : TruthTable} (hf : f.numVars ≤ 20) (m : Nat) :
    (phases f).keeps m = decide (m ≠ 0 ∧ spectralCoefficient f m ≠ 0) := by
  have hzero : (phases f).maskAngle m ≠ 0 ↔ spectralCoefficient f m ≠ 0 := by
    rw [maskAngle_phases]
    simp
  rw [Cube.keeps, decide_eq_decide, ← hzero]
  refine and_congr_right fun _ => ⟨fun hle => ?_, cutoff_le_abs_maskAngle hf⟩
  exact abs_pos.mp (lt_of_lt_of_le cutoff_pos hle)

noncomputable def segment (f : TruthTable) : List (Gate ℝ) :=
  PhasePolynomial.circuit (f.numVars + 1) (phases f).phaseTerms

theorem segment_elementary (f : TruthTable) :
    ∀ g ∈ segment f, PhasePolynomial.Elementary (f.numVars + 1) g :=
  PhasePolynomial.circuit_elementary (phases f).mask_lt_of_mem_phaseTerms

theorem valid_spectrum {α : Type} [Angle α] (f : TruthTable) :
    ∀ g ∈ (spectrum f : List (Gate α)), g.Valid (f.numVars + 1) := by
  have hends : (Gate.hadamard f.numVars : Gate α).Valid (f.numVars + 1) :=
    Gate.valid_hadamard (Nat.lt_succ_self _)
  have hphases := PhasePolynomial.circuit_elementary (phases f : Cube α _).mask_lt_of_mem_phaseTerms
  simp only [spectrum, List.cons_append, List.forall_mem_cons, List.forall_mem_append]
  exact ⟨hends, fun g hg => (hphases g hg).valid, hends, nofun⟩

theorem readings_segment {f : TruthTable} (hf : f.numVars ≤ 20) :
    (readings (segment f)).Perm
      ((spectralMasks f).map fun m => (-2 * spectralCoefficient f m, dot (f.numVars + 1) m)) := by
  have h := (phases f : Cube ℝ (f.numVars + 1)).readings_circuit_phaseTerms
  simp only [maskAngle_phases] at h
  rwa [List.filter_congr fun m _ => keeps_phases hf m] at h

theorem controlValue_update {controls : List Nat} {target : Nat} (h : target ∉ controls) (s : State)
    (b : Bool) : controlValue controls (Function.update s target b) = controlValue controls s := by
  refine packBits_congr fun i hi => Function.update_of_ne ?_ b s
  rintro rfl
  rw [List.getD_eq_getElem _ _ hi] at h
  exact h (List.getElem_mem hi)

section Placed

variable {f : TruthTable} {controls : List Nat} {target : Nat} {wire : Nat → Nat}

theorem sum_placed (hvars : f.numVars ≤ 20) (hinj : Function.Injective wire)
    (hlen : controls.length = f.numVars)
    (hcontrols : ∀ i < controls.length, wire i = controls.getD i 0)
    (htarget : wire controls.length = target) (s : State) :
    (runGates ((segment f).map (Gate.relabel wire)) s).2.sum =
      if f.bit (controlValue controls s) && s target then Real.pi else 0 := by
  rw [fired_relabel hinj, segment, Cube.sum_fired_circuit, keptSum_phases hvars, ← hlen,
    packBits_wire hcontrols, htarget, Bool.and_comm]

theorem readings_placed {qubits : List Nat} (hvars : f.numVars ≤ 20)
    (hinj : Function.Injective wire) (hcount : qubits.length = f.numVars + 1)
    (hwire : ∀ i (hi : i < qubits.length), wire i = qubits[i]) :
    (readings ((segment f).map (Gate.relabel wire))).Perm
      ((spectralMasks f).map fun m =>
        (-2 * spectralCoefficient f m, fun s => oddOverlap (f.numVars + 1) m
          (packBits (fun i => s (qubits.getD i 0)) (f.numVars + 1)))) := by
  rw [readings_relabel hinj]
  refine ((readings_segment hvars).map _).trans (List.Perm.of_eq ?_)
  rw [List.map_map]
  refine List.map_congr_left fun m _ => congrArg (Prod.mk _) (funext fun s => ?_)
  rw [oddOverlap_packBits (Nat.le_refl _)]
  refine dot_congr m fun i hi => ?_
  have hi' : i < qubits.length := hcount ▸ hi
  rw [hwire i hi', List.getD_eq_getElem _ _ hi']

theorem evolve_spectrum {gs : List (Gate ℝ)} (hmonomial : ∀ g ∈ gs, g.Monomial)
    (hafter : ∀ s, after gs s = s)
    (hsum : ∀ s, (runGates gs s).2.sum =
      if f.bit (controlValue controls s) && s target then Real.pi else 0)
    (htarget : target ∉ controls) (ψ : Wave) (s : State) :
    evolve (Gate.hadamard target :: gs ++ [Gate.hadamard target]) ψ
      (s.toggle target (f.bit (controlValue controls s))) = ψ s := by
  have hsame : ∀ (s : State) b, f.bit (controlValue controls (Function.update s target b)) =
      f.bit (controlValue controls s) := fun s b => by rw [controlValue_update htarget]
  have htoggle : ∀ b, f.bit (controlValue controls (s.toggle target b)) =
      f.bit (controlValue controls s) := fun b => by rw [State.toggle_eq_update, hsame]
  rw [evolve_between_hadamards hmonomial hafter hsum hsame, htoggle, State.toggle_toggle,
    Bool.xor_self, State.toggle_false]

end Placed

theorem embed_spectrum_exact {f : TruthTable} (hf : f.Built) (n : Netlist ℝ) {controls : List Nat}
    {target : Nat} (hlen : controls.length = f.numVars) (hnodup : (controls ++ [target]).Nodup)
    (halloc : ∀ q ∈ controls ++ [target], q < n.numQubits) :
    ∃ gs : List (Gate ℝ),
      embed .spectrum f n (controls ++ [target]) =
        ({ n with gates := n.gates ++ (Gate.hadamard target :: gs ++ [Gate.hadamard target]) },
          none) ∧
      (∀ g ∈ gs, (∃ angle, ∃ q ∈ controls ++ [target], g = Gate.phase angle q) ∨
        ∃ c ∈ controls ++ [target], ∃ t ∈ controls ++ [target], c ≠ t ∧ g = Gate.cnot c t) ∧
      (∀ s, (runGates (gs.filter Gate.isClassical) s).1 = s) ∧
      (readings gs).Perm
        ((spectralMasks f).map fun m =>
          (-2 * spectralCoefficient f m, fun s => oddOverlap (f.numVars + 1) m
            (packBits (fun i => s ((controls ++ [target]).getD i 0)) (f.numVars + 1)))) ∧
      (∀ s, (runGates gs s).2.sum =
        if f.bit (controlValue controls s) && s target then Real.pi else 0) ∧
      ∀ (ψ : Wave) (s : State),
        evolve (Gate.hadamard target :: gs ++ [Gate.hadamard target]) ψ
          (s.toggle target (f.bit (controlValue controls s))) = ψ s := by
  have hvars : f.numVars ≤ 20 := hf.sized.arity
  have hcount : (controls ++ [target]).length = f.numVars + 1 := by simp [hlen]
  obtain ⟨wire, hinj, hwire, hplace⟩ :=
    Netlist.place_of_valid hnodup halloc fun g hg => hcount ▸ valid_spectrum f g hg
  obtain ⟨hcontrols, htarget⟩ := wire_of_getElem hwire
  have hmem : ∀ i < f.numVars + 1, wire i ∈ controls ++ [target] := fun i hi =>
    hwire i (hcount ▸ hi) ▸ List.getElem_mem _
  have hgates : ∀ g ∈ (segment f).map (Gate.relabel wire),
      (∃ angle, ∃ q ∈ controls ++ [target], g = Gate.phase angle q) ∨
        ∃ c ∈ controls ++ [target], ∃ t ∈ controls ++ [target], c ≠ t ∧ g = Gate.cnot c t := by
    intro g hg
    obtain ⟨g', hg', rfl⟩ := List.mem_map.mp hg
    exact (segment_elementary f g' hg').relabel hinj hmem
  have hmonomial : ∀ g ∈ (segment f).map (Gate.relabel wire), g.Monomial := by
    intro g hg
    rcases hgates g hg with ⟨angle, q, _, rfl⟩ | ⟨c, _, t, _, hct, rfl⟩
    · exact Gate.monomial_phase angle q
    · exact Gate.monomial_cnot hct
  have hafter : ∀ s, after ((segment f).map (Gate.relabel wire)) s = s :=
    after_relabel_eq_self hinj
      (PhasePolynomial.after_circuit (phases f).mask_lt_of_mem_phaseTerms)
  have hsum := sum_placed hvars hinj hlen hcontrols htarget
  have hspectrum : (spectrum f).map (Gate.relabel wire) =
      Gate.hadamard target :: (segment f).map (Gate.relabel wire) ++ [Gate.hadamard target] := by
    rw [spectrum, List.map_append, List.map_cons, ← htarget, hlen]
    rfl
  have hnotMem : target ∉ controls := fun hmem =>
    (List.nodup_append.mp hnodup).2.2 target hmem target (List.mem_singleton_self _) rfl
  refine ⟨(segment f).map (Gate.relabel wire), ?_, hgates, fun s => ?_,
    readings_placed hvars hinj hcount hwire, hsum, evolve_spectrum hmonomial hafter hsum hnotMem⟩
  · rw [embed, if_neg (not_not_intro hcount), circuit]
    rw [hspectrum] at hplace
    exact hplace
  · change after _ s = s
    rw [after_filter_classical, hafter]

theorem embed_spectrum_exact_neither :
    neither.Built ∧ [4, 0].length = neither.numVars ∧ ([4, 0] ++ [2]).Nodup ∧
    ∃ gs : List (Gate ℝ),
      embed .spectrum neither (.withQubits "register" 5) ([4, 0] ++ [2]) =
        (⟨"register", (Netlist.withQubits "register" 5 : Netlist ℝ).qubits,
          Gate.hadamard 2 :: gs ++ [Gate.hadamard 2]⟩, none) ∧
      (∀ g ∈ gs, (∃ angle, ∃ q ∈ [4, 0] ++ [2], g = Gate.phase angle q) ∨
        ∃ c ∈ [4, 0] ++ [2], ∃ t ∈ [4, 0] ++ [2], c ≠ t ∧ g = Gate.cnot c t) ∧
      (∀ s, (runGates (gs.filter Gate.isClassical) s).1 = s) ∧
      (readings gs).Perm
        ((spectralMasks neither).map fun m =>
          (-2 * spectralCoefficient neither m, fun s => oddOverlap 3 m
            (packBits (fun i => s (([4, 0] ++ [2]).getD i 0)) 3))) ∧
      (∀ s, (runGates gs s).2.sum =
        if neither.bit (controlValue [4, 0] s) && s 2 then Real.pi else 0) ∧
      ∀ (ψ : Wave) (s : State),
        evolve (Gate.hadamard 2 :: gs ++ [Gate.hadamard 2]) ψ
          (s.toggle 2 (neither.bit (controlValue [4, 0] s))) = ψ s :=
  ⟨neither_built, rfl, by decide,
    embed_spectrum_exact neither_built (.withQubits "register" 5) rfl (by decide) (by simp)⟩

end ReversibleSynthesis.SingleTarget
