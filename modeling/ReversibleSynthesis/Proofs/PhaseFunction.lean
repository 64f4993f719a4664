import Mathlib.Algebra.BigOperators.Field
import Mathlib.Analysis.SpecialFunctions.Trigonometric.Basic
import ReversibleSynthesis.Proofs.PhasePolynomial
import ReversibleSynthesis.Proofs.Walsh

namespace ReversibleSynthesis

open Finset

noncomputable def cutoff : ℝ := 1 / 10 ^ 12

noncomputable instance : Angle ℝ where
  zero := 0
  pi := Real.pi
  ofNat := Nat.cast
  isZero a := decide (a = 0)
  isFinite _ := true
  isNegligible a := decide (|a| < cutoff)

theorem cutoff_pos : 0 < cutoff := by
  unfold cutoff
  positivity

theorem sum_fired {β : Type} [AddMonoid β] (gs : List (Gate β)) (s : State) :
    (runGates gs s).2.sum = ((readings gs).map fun r => if r.2 s then r.1 else 0).sum := by
  rw [runGates_snd]
  induction readings gs with
  | nil => rfl
  | cons r rs ih => cases h : r.2 s <;> simp [h, ih]

namespace Cube

theorem phaseTerms_spec {β : Type} [Angle β] {n : Nat} (φ : Cube β n) :
    φ.phaseTerms.terms =
      ((List.range (2 ^ n)).map fun m => (⟨m, termAngle n (φ.walsh.get m)⟩ : ParityTerm β)).filter
        (fun t => t.mask != 0 && !Angle.isNegligible t.angle) ∧
      φ.phaseTerms.numVars = n := by
  have hlist : φ.walsh.toList.mapIdx (fun m sum => (⟨m, termAngle n sum⟩ : ParityTerm β)) =
      (List.range (2 ^ n)).map fun m => ⟨m, termAngle n (φ.walsh.get m)⟩ := by
    rw [toList_eq]
    apply List.ext_getElem <;> simp
  have hempty : (⟨some n, [], []⟩ : ParityTerms β).Indexed := fun _ _ => ⟨nofun, nofun⟩
  -- the masks are distinct, so every term is appended
  have hnodup : (((List.range (2 ^ n)).map fun m =>
      (⟨m, termAngle n (φ.walsh.get m)⟩ : ParityTerm β)).filter
        (fun t => t.mask != 0 && !Angle.isNegligible t.angle)
      |>.map ParityTerm.mask).Nodup := by
    refine (List.filter_sublist.map ParityTerm.mask).nodup ?_
    rw [List.map_map]
    exact (List.map_id (List.range (2 ^ n))).symm ▸ List.nodup_range
  obtain ⟨hterms, hnum⟩ := ParityTerms.foldl_insert_of_nodup hempty hnodup
  rw [phaseTerms, hlist, ParityTerms.numVars, hnum]
  exact ⟨hterms, rfl⟩

theorem phaseTerms_built {β : Type} [Angle β] {n : Nat} (hn : n ≤ ParityTerms.maxVars)
    (φ : Cube β n) : φ.phaseTerms.Built := by
  rw [phaseTerms]
  refine ParityTerms.built_foldl_insert (.withNumVars (if_pos hn)) rfl fun t ht => ?_
  obtain ⟨hmem, hkept⟩ := List.mem_filter.mp ht
  obtain ⟨m, hm, rfl⟩ := List.mem_mapIdx.mp hmem
  rw [length_toList] at hm
  exact ⟨by simpa using (Bool.and_eq_true_iff.mp hkept).1, hm⟩

theorem mask_lt_of_mem_phaseTerms {β : Type} [Angle β] {n : Nat} (φ : Cube β n) :
    ∀ t ∈ φ.phaseTerms.terms, t.mask < 2 ^ n := by
  intro t ht
  rw [φ.phaseTerms_spec.1] at ht
  obtain ⟨m, hm, rfl⟩ := List.mem_map.mp (List.mem_of_mem_filter ht)
  exact List.mem_range.mp hm

variable {n : Nat} (φ : Cube ℝ n)

noncomputable def maskAngle (m : Nat) : ℝ := termAngle n (φ.walsh.get m)

noncomputable def keeps (m : Nat) : Bool := decide (m ≠ 0 ∧ cutoff ≤ |φ.maskAngle m|)

theorem maskAngle_eq (m : Nat) : φ.maskAngle m = -2 * φ.walsh.get m / 2 ^ n := by
  change -((2 : ℕ) : ℝ) * φ.walsh.get m * (((1 : ℕ) : ℝ) / ((2 ^ n : ℕ) : ℝ)) = _
  push_cast
  ring

theorem sum_maskAngle (s : State) :
    ∑ m ∈ range (2 ^ n), (if dot n m s then φ.maskAngle m else 0) =
      φ.valueAt s - φ.valueAt fun _ => false := by
  have hscale : ∀ m, (if dot n m s then φ.maskAngle m else 0) =
      (if dot n m s then -2 * φ.walsh.get m else 0) / 2 ^ n := by
    intro m
    rw [maskAngle_eq, ite_div, zero_div]
  rw [Finset.sum_congr rfl fun m _ => hscale m, ← sum_div, sum_odd_walsh,
    mul_div_cancel_left₀ _ (by positivity)]

theorem active_phaseTerms :
    φ.phaseTerms.active =
      ((List.range (2 ^ n)).filter φ.keeps).map fun m => ⟨m, φ.maskAngle m⟩ := by
  rw [ParityTerms.active, φ.phaseTerms_spec.1, List.filter_filter, List.filter_map]
  congr 1
  refine List.filter_congr fun m _ => ?_
  have hne : cutoff ≤ |φ.maskAngle m| → φ.maskAngle m ≠ 0 := fun hle =>
    abs_pos.mp (lt_of_lt_of_le cutoff_pos hle)
  change ((m != 0 && !decide (φ.maskAngle m = 0)) && (m != 0 && !decide (|φ.maskAngle m| < cutoff))) =
    decide (m ≠ 0 ∧ cutoff ≤ |φ.maskAngle m|)
  rw [Bool.eq_iff_iff]
  simp only [Bool.and_eq_true, bne_iff_ne, Bool.not_eq_true', decide_eq_false_iff_not, not_lt,
    decide_eq_true_eq]
  exact ⟨fun h => h.2, fun h => ⟨⟨h.1, hne h.2⟩, h⟩⟩

noncomputable def keptSum (s : State) : ℝ :=
  ∑ m ∈ range (2 ^ n), if φ.keeps m && dot n m s then φ.maskAngle m else 0

theorem readings_circuit_phaseTerms :
    (readings (PhasePolynomial.circuit n φ.phaseTerms)).Perm
      (((List.range (2 ^ n)).filter φ.keeps).map fun m => (φ.maskAngle m, dot n m)) := by
  have h := PhasePolynomial.readings_circuit φ.mask_lt_of_mem_phaseTerms
  rwa [active_phaseTerms, List.map_map] at h

theorem sum_fired_circuit (s : State) :
    (runGates (PhasePolynomial.circuit n φ.phaseTerms) s).2.sum = φ.keptSum s := by
  have hsum : ∀ p : Nat → Bool, ∀ f : Nat → ℝ,
      (((List.range (2 ^ n)).filter p).map f).sum = ∑ m ∈ range (2 ^ n), if p m then f m else 0 := by
    intro p f
    rw [← List.sum_toFinset f (List.nodup_range.filter p), List.toFinset_filter,
      List.toFinset_range, sum_filter]
  rw [sum_fired, (φ.readings_circuit_phaseTerms.map _).sum_eq, List.map_map, hsum, keptSum]
  refine Finset.sum_congr rfl fun m _ => ?_
  cases φ.keeps m <;> rfl

theorem abs_keptSum_sub_le (s : State) :
    |φ.keptSum s - (φ.valueAt s - φ.valueAt fun _ => false)| ≤
      ((range (2 ^ n)).filter fun m => dot n m s = true).card * cutoff := by
  have hterm : ∀ m, |(if φ.keeps m && dot n m s then φ.maskAngle m else 0) -
      if dot n m s then φ.maskAngle m else 0| ≤ if dot n m s = true then cutoff else 0 := by
    intro m
    cases hdot : dot n m s with
    | false => simp
    | true =>
      cases hkeep : φ.keeps m with
      | true => simpa using cutoff_pos.le
      | false =>
        have hlt : |φ.maskAngle m| < cutoff := by
          by_contra hle
          rw [keeps, decide_eq_false_iff_not] at hkeep
          exact hkeep ⟨ne_zero_of_dot hdot, not_lt.mp hle⟩
        simpa using hlt.le
  calc |φ.keptSum s - (φ.valueAt s - φ.valueAt fun _ => false)|
      = |∑ m ∈ range (2 ^ n), ((if φ.keeps m && dot n m s then φ.maskAngle m else 0) -
          if dot n m s then φ.maskAngle m else 0)| := by
        rw [keptSum, ← sum_maskAngle, sum_sub_distrib]
    _ ≤ ∑ m ∈ range (2 ^ n), if dot n m s = true then cutoff else 0 :=
        (abs_sum_le_sum_abs _ _).trans (sum_le_sum fun m _ => hterm m)
    _ = ((range (2 ^ n)).filter fun m => dot n m s = true).card * cutoff := by
        rw [← sum_filter, sum_const, nsmul_eq_mul]

theorem keptSum_eq (hkeep : ∀ m, m ≠ 0 → φ.maskAngle m ≠ 0 → cutoff ≤ |φ.maskAngle m|)
    (s : State) : φ.keptSum s = φ.valueAt s - φ.valueAt fun _ => false := by
  rw [← sum_maskAngle, keptSum]
  refine Finset.sum_congr rfl fun m _ => ?_
  cases hdot : dot n m s with
  | false => simp
  | true =>
    have hm := ne_zero_of_dot hdot
    by_cases hzero : φ.maskAngle m = 0
    · simp [hzero]
    · simp [keeps, hm, hkeep m hm hzero]

end Cube

end ReversibleSynthesis
