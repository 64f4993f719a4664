import Mathlib.Analysis.SpecialFunctions.Trigonometric.Basic
import ReversibleSynthesis.Proofs.Run

namespace ReversibleSynthesis

abbrev Wave := State → ℂ

open Complex Function

noncomputable def Gate.evolve (g : Gate ℝ) (ψ : Wave) : Wave := fun s =>
  match g.operation with
  | .x => ψ (g.act s)
  | .p angle => if g.enabled s && s g.target then exp (angle * I) * ψ s else ψ s
  | .h =>
    if g.enabled s then
      (ψ (update s g.target false) + (if s g.target then -1 else 1) * ψ (update s g.target true)) /
        (√2 : ℝ)
    else ψ s

noncomputable def evolve : List (Gate ℝ) → Wave → Wave
  | [], ψ => ψ
  | g :: gs, ψ => evolve gs (g.evolve ψ)

theorem evolve_append (gs hs : List (Gate ℝ)) (ψ : Wave) :
    evolve (gs ++ hs) ψ = evolve hs (evolve gs ψ) := by
  induction gs generalizing ψ with
  | nil => rfl
  | cons g gs ih => exact ih (g.evolve ψ)

theorem State.toggle_eq_update (s : State) (q : Nat) (b : Bool) :
    s.toggle q b = update s q (s q ^^ b) := by
  funext r
  by_cases h : r = q
  · subst h
    rw [toggle_self, update_self]
  · rw [toggle_of_ne _ _ h, update_of_ne h]

def Gate.Monomial (g : Gate ℝ) : Prop := g.operation ≠ .h ∧ g.target ∉ g.controls

theorem Gate.monomial_phase (angle : ℝ) (q : Nat) : (Gate.phase angle q).Monomial :=
  ⟨nofun, List.not_mem_nil⟩

theorem Gate.monomial_cnot {c t : Nat} (h : c ≠ t) : (Gate.cnot c t : Gate ℝ).Monomial :=
  ⟨nofun, fun ht => h (List.mem_singleton.mp ht).symm⟩

theorem Gate.evolve_act {g : Gate ℝ} (hg : g.Monomial) (ψ : Wave) (s : State) :
    g.evolve ψ (g.act s) = exp ((g.fired? s).toList.sum * I) * ψ s := by
  have hact := g.act_act hg.2 s
  obtain ⟨op, cs, t⟩ := g
  cases op with
  | x =>
    change ψ _ = _
    rw [hact]
    simp [fired?]
  | h => exact absurd rfl hg.1
  | p angle =>
    rw [act_of_not_classical rfl]
    simp only [evolve, fired?]
    cases (⟨.p angle, cs, t⟩ : Gate ℝ).enabled s && s t with
    | false => simp
    | true => simp

theorem evolve_after {gs : List (Gate ℝ)} (h : ∀ g ∈ gs, g.Monomial) (ψ : Wave) (s : State) :
    evolve gs ψ (after gs s) = exp ((runGates gs s).2.sum * I) * ψ s := by
  induction gs generalizing ψ s with
  | nil => simp [evolve, runGates]
  | cons g gs ih =>
    obtain ⟨hg, hgs⟩ := List.forall_mem_cons.mp h
    have hangles : (runGates (g :: gs) s).2 = (g.fired? s).toList ++ (runGates gs (g.act s)).2 := rfl
    rw [evolve, after_cons, ih hgs, Gate.evolve_act hg, hangles, List.sum_append, ofReal_add, add_mul,
      exp_add]
    ring

theorem evolve_hadamard (t : Nat) (ψ : Wave) (s : State) :
    (Gate.hadamard t).evolve ψ s =
      (ψ (update s t false) + (if s t then -1 else 1) * ψ (update s t true)) / (√2 : ℝ) := rfl

theorem add_self_div_sqrt_two (a : ℂ) : (a + a) / (√2 : ℝ) / (√2 : ℝ) = a := by
  have hroot : ((√2 : ℝ) : ℂ) * (√2 : ℝ) = 2 := by
    rw [← ofReal_mul, Real.mul_self_sqrt (by norm_num)]
    norm_num
  rw [div_div, hroot, ← two_mul, mul_div_cancel_left₀ _ two_ne_zero]

theorem evolve_between_hadamards {gs : List (Gate ℝ)} {t : Nat} {value : State → Bool}
    (hmonomial : ∀ g ∈ gs, g.Monomial) (hafter : ∀ s, after gs s = s)
    (hsum : ∀ s, (runGates gs s).2.sum = if value s && s t then Real.pi else 0)
    (hvalue : ∀ s b, value (update s t b) = value s) (ψ : Wave) (s : State) :
    evolve (Gate.hadamard t :: gs ++ [Gate.hadamard t]) ψ s = ψ (s.toggle t (value s)) := by
  have hphase : ∀ (χ : Wave) (b : Bool), evolve gs χ (update s t b) =
      (if value s && b then -1 else 1) * χ (update s t b) := by
    intro χ b
    have hrun := evolve_after hmonomial χ (update s t b)
    rw [hafter, hsum, hvalue, update_self] at hrun
    rw [hrun]
    cases value s && b with
    | false => simp
    | true => simp [exp_pi_mul_I]
  have hsplit : evolve (Gate.hadamard t :: gs ++ [Gate.hadamard t]) ψ s =
      (evolve gs ((Gate.hadamard t).evolve ψ) (update s t false) +
        (if s t then -1 else 1) * evolve gs ((Gate.hadamard t).evolve ψ) (update s t true)) /
          (√2 : ℝ) := by
    rw [evolve_append]
    rfl
  rw [hsplit, hphase, hphase, evolve_hadamard, evolve_hadamard, State.toggle_eq_update]
  -- The two amplitudes meet again with equal or with opposite signs, and one of them cancels.
  rw [← add_self_div_sqrt_two (ψ (update s t (s t ^^ value s)))]
  simp only [update_idem, update_self]
  cases value s <;> cases s t <;> simp <;> ring

end ReversibleSynthesis
