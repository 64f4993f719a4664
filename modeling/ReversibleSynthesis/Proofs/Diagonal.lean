import ReversibleSynthesis.Proofs.PhaseFunction

namespace ReversibleSynthesis

theorem diagonalVars_of_length {n : Nat} (hpos : 1 ≤ n) (hle : n ≤ 20) :
    diagonalVars (2 ^ n - 1) = .ok n := by
  have hlog : powerOfTwoLog? (2 ^ n - 1 + 1) = some n :=
    powerOfTwoLog?_eq_some_iff.mpr (Nat.sub_add_cancel (Nat.one_le_two_pow))
  obtain ⟨k, rfl⟩ : ∃ k, n = k + 1 := ⟨n - 1, by omega⟩
  rw [diagonalVars, hlog]
  exact if_neg (Nat.not_lt.mpr hle)

theorem diagonalVars_eq_error {count : Nat} (h : ∀ n, 1 ≤ n → n ≤ 20 → count ≠ 2 ^ n - 1) :
    diagonalVars count = .error (.invalidAngleCount count) ∨
      ∃ n > 20, count = 2 ^ n - 1 ∧
        diagonalVars count = .error (.input (.tooManyVariables n 20)) := by
  rw [diagonalVars]
  cases hlog : powerOfTwoLog? (count + 1) with
  | none => exact .inl rfl
  | some n =>
    have hcount : count = 2 ^ n - 1 := by
      have := powerOfTwoLog?_eq_some_iff.mp hlog
      omega
    cases n with
    | zero => exact .inl rfl
    | succ n =>
      have hlarge : 20 < n + 1 := by
        by_contra hle
        exact h (n + 1) (by omega) (by omega) hcount
      exact .inr ⟨n + 1, hlarge, hcount, if_pos hlarge⟩

theorem ParityTerms.toNetlist_eq {α : Type} [Angle α] {ts : ParityTerms α} {size : Nat}
    (hmask : ∀ t ∈ ts.terms, t.mask < 2 ^ size) (hvars : ts.numVars ≤ size) (hsize : size ≤ 64)
    (name : String) :
    ts.toNetlist name size =
      .ok { (Netlist.withQubits name size : Netlist α) with
        gates := PhasePolynomial.circuit size ts } := by
  have hvalid : ∀ g ∈ PhasePolynomial.circuit size ts, g.Valid size :=
    fun g hg => (PhasePolynomial.circuit_elementary hmask g hg).valid
  have hlen : (List.range size).length = size := List.length_range
  obtain ⟨f, -, hfq, hplace⟩ := Netlist.place_of_valid (n := .withQubits name size)
    (List.nodup_range (n := size)) (by simp) fun g hg => hlen.symm ▸ hvalid g hg
  have hself : (PhasePolynomial.circuit size ts).map (Gate.relabel f) =
      PhasePolynomial.circuit size ts := by
    refine (List.map_congr_left fun g hg => ?_).trans (List.map_id _)
    refine Gate.relabel_eq_self fun q hq => ?_
    rw [hfq q (by simpa using (hvalid g hg).1 q hq), List.getElem_range]
  have happend : ts.appendTo (.withQubits name size) (List.range size) =
      ({ (Netlist.withQubits name size : Netlist α) with
        gates := PhasePolynomial.circuit size ts }, none) := by
    rw [appendTo, hlen, if_neg (by simpa [maxVars] using hsize), if_neg (Nat.not_lt.mpr hvars),
      hplace, hself]
    rfl
  rw [toNetlist, happend]

noncomputable def diagonalPhases (n : Nat) (angles : List ℝ) : Cube ℝ n :=
  Cube.tabulate n fun x => -(0 :: angles).getD x 0

theorem synthesizeDiagonal_eq {n : Nat} {angles : List ℝ} (hpos : 1 ≤ n) (hle : n ≤ 20)
    (hlen : angles.length = 2 ^ n - 1) :
    synthesizeDiagonal angles =
      .ok { (Netlist.withQubits "diagonal" n : Netlist ℝ) with
        gates := PhasePolynomial.circuit n (diagonalPhases n angles).phaseTerms } := by
  have hfinite : angles.findIdx? (fun a => !Angle.isFinite a) = none :=
    List.findIdx?_eq_none_iff.mpr fun _ _ => rfl
  have hphase : (fun x => if x = 0 then Angle.zero else -angles.toArray.getD (x - 1) Angle.zero) =
      fun x => -(0 :: angles).getD x (0 : ℝ) := by
    funext x
    cases x with
    | zero => exact neg_zero.symm
    | succ x => simp [Angle.zero]
  rw [synthesizeDiagonal, hlen, diagonalVars_of_length hpos hle]
  simp only [bind, Except.bind, hfinite, hphase]
  exact ParityTerms.toNetlist_eq (diagonalPhases n angles).mask_lt_of_mem_phaseTerms
    (Nat.le_of_eq (diagonalPhases n angles).phaseTerms_spec.2) (by omega) "diagonal"

theorem synthesizeDiagonal_eq_error {α : Type} [Angle α] {angles : List α} {e : SynthesisError}
    (h : diagonalVars angles.length = .error e) : synthesizeDiagonal angles = .error e := by
  rw [synthesizeDiagonal, h]
  rfl

theorem valueAt_diagonalPhases (n : Nat) (angles : List ℝ) (s : State) :
    (diagonalPhases n angles).valueAt s = -(0 :: angles).getD (packBits s n) 0 :=
  Cube.valueAt_tabulate _ n s

theorem valueAt_diagonalPhases_origin (n : Nat) (angles : List ℝ) :
    (diagonalPhases n angles).valueAt (fun _ => false) = 0 := by
  have horigin : packBits (fun _ => false) n = 0 :=
    packBits_eq (Nat.two_pow_pos n) fun i _ => (Nat.zero_testBit i).symm
  rw [valueAt_diagonalPhases, horigin]
  exact neg_zero

theorem synthesizeDiagonal_phases (angles : List ℝ) :
    (∀ n, 1 ≤ n → n ≤ 20 → angles.length = 2 ^ n - 1 →
      ∃ netlist : Netlist ℝ, synthesizeDiagonal angles = .ok netlist ∧
        netlist.numQubits = n ∧
        (∀ g ∈ netlist.gates, (∃ angle, ∃ q < n, g = Gate.phase angle q) ∨
          ∃ c < n, ∃ t < n, c ≠ t ∧ g = Gate.cnot c t) ∧
        (∀ s, (runGates (netlist.gates.filter Gate.isClassical) s).1 = s) ∧
        ∀ s, |(netlist.run s).2.sum - -(0 :: angles).getD (packBits s n) 0| ≤
          2 ^ (n - 1) * (1 / 10 ^ 12)) ∧
    ((∀ n, 1 ≤ n → n ≤ 20 → angles.length ≠ 2 ^ n - 1) →
      synthesizeDiagonal angles = .error (.invalidAngleCount angles.length) ∨
        ∃ n > 20, angles.length = 2 ^ n - 1 ∧
          synthesizeDiagonal angles = .error (.input (.tooManyVariables n 20))) := by
  constructor
  · intro n hpos hle hlen
    have hmask := (diagonalPhases n angles).mask_lt_of_mem_phaseTerms
    refine ⟨_, synthesizeDiagonal_eq hpos hle hlen, ?_,
      PhasePolynomial.circuit_elementary hmask, fun s => ?_, fun s => ?_⟩
    · exact Netlist.numQubits_withQubits (α := ℝ) "diagonal" n
    · change after _ s = s
      rw [after_filter_classical]
      exact PhasePolynomial.after_circuit hmask s
    · have herror := (diagonalPhases n angles).abs_keptSum_sub_le s
      rw [valueAt_diagonalPhases_origin, sub_zero, valueAt_diagonalPhases,
        ← Cube.sum_fired_circuit] at herror
      have hhalf := Cube.two_mul_card_odd_le n s
      have hcard : ((Finset.range (2 ^ n)).filter fun m => dot n m s = true).card ≤ 2 ^ (n - 1) := by
        have hpow := Nat.two_pow_pred_mul_two hpos
        omega
      refine herror.trans (mul_le_mul_of_nonneg_right ?_ cutoff_pos.le)
      exact_mod_cast hcard
  · intro hlen
    rcases diagonalVars_eq_error hlen with herror | ⟨n, hn, hcount, herror⟩
    · exact .inl (synthesizeDiagonal_eq_error herror)
    · exact .inr ⟨n, hn, hcount, synthesizeDiagonal_eq_error herror⟩

theorem synthesizeDiagonal_phases_of_few :
    (∃ netlist : Netlist ℝ, synthesizeDiagonal [1, 2, 3] = .ok netlist ∧
      netlist.numQubits = 2 ∧
      (∀ g ∈ netlist.gates, (∃ angle, ∃ q < 2, g = Gate.phase angle q) ∨
        ∃ c < 2, ∃ t < 2, c ≠ t ∧ g = Gate.cnot c t) ∧
      (∀ s, (runGates (netlist.gates.filter Gate.isClassical) s).1 = s) ∧
      ∀ s, |(netlist.run s).2.sum - -[0, 1, 2, 3].getD (packBits s 2) 0| ≤
        2 ^ (2 - 1) * (1 / 10 ^ 12)) ∧
    (synthesizeDiagonal [(1 : ℝ), 2] = .error (.invalidAngleCount 2) ∨
      ∃ n > 20, 2 = 2 ^ n - 1 ∧
        synthesizeDiagonal [(1 : ℝ), 2] = .error (.input (.tooManyVariables n 20))) := by
  have htwo : ∀ n, 1 ≤ n → n ≤ 20 → 2 ≠ 2 ^ n - 1 := by decide
  exact ⟨(synthesizeDiagonal_phases [1, 2, 3]).1 2 (by decide) (by decide) rfl,
    (synthesizeDiagonal_phases [1, 2]).2 htwo⟩

end ReversibleSynthesis
