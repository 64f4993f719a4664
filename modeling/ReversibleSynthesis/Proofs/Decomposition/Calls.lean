import ReversibleSynthesis.Proofs.Decomposition
import ReversibleSynthesis.Proofs.TruthTable.Representation

namespace ReversibleSynthesis.Decomposition

open Permutation

variable {n var : Nat} {perm : Array Nat}

def KeepsBit (n : Nat) (perm : Array Nat) (i : Nat) : Prop :=
  ∀ x < 2 ^ n, (perm.getD x 0).testBit i = x.testBit i

def reduced (perm : Array Nat) (var : Nat) : Array Nat :=
  residual perm var (decompose perm var).1 (decompose perm var).2

theorem KeepsBit.reduced {i : Nat} (h : Table (2 ^ n) perm) (hvar : var < n)
    (hkeep : KeepsBit n perm i) : KeepsBit n (reduced perm var) i := by
  intro x hx
  rcases eq_or_ne i var with rfl | hne
  · exact testBit_residual_self h hvar hx
  · exact testBit_residual_of_ne h hvar hne hkeep hx

theorem foldl_reduced_spec {vars : List Nat} (h : Table (2 ^ n) perm) (hvars : ∀ v ∈ vars, v < n) :
    Table (2 ^ n) (vars.foldl reduced perm) ∧
      (∀ i, KeepsBit n perm i → KeepsBit n (vars.foldl reduced perm) i) ∧
      ∀ i ∈ vars, KeepsBit n (vars.foldl reduced perm) i := by
  induction vars generalizing perm with
  | nil => exact ⟨h, fun _ hkeep => hkeep, by simp⟩
  | cons var vars ih =>
    obtain ⟨hvar, hvars⟩ := List.forall_mem_cons.mp hvars
    have hself : KeepsBit n (reduced perm var) var := fun x hx => testBit_residual_self h hvar hx
    obtain ⟨htable, hkept, hdone⟩ := ih (table_residual h hvar : Table _ (reduced perm var)) hvars
    refine ⟨htable, fun i hkeep => hkept i (hkeep.reduced h hvar), fun i hi => ?_⟩
    rcases List.mem_cons.mp hi with rfl | hi
    · exact hkept _ hself
    · exact hdone i hi

section LastVariable

variable (h : Table (2 ^ n) perm) (hvar : var < n)
  (hkeep : ∀ i < n, i ≠ var → KeepsBit n perm i)

include h hkeep

theorem clearBit_image {x : Nat} (hx : x < 2 ^ n) :
    clearBit (perm.getD x 0) var = clearBit x var := by
  refine eq_of_testBit_below (clearBit_lt (h.lt x hx)) (clearBit_lt hx) fun i hi => ?_
  rw [testBit_clearBit, testBit_clearBit]
  rcases eq_or_ne i var with rfl | hne
  · simp
  · rw [hkeep i hi hne x hx]

theorem parity_xor {u : Nat} (hu : u < 2 ^ n) (hvar : var < n) :
    parity perm var (u ^^^ 2 ^ var) = parity perm var u := by
  have hxor := xor_two_pow_lt hu hvar
  have himage : perm.getD (u ^^^ 2 ^ var) 0 = perm.getD u 0 ^^^ 2 ^ var := by
    have hclear : clearBit (perm.getD (u ^^^ 2 ^ var) 0) var = clearBit (perm.getD u 0) var := by
      rw [clearBit_image h hkeep hxor, clearBit_xor_two_pow, clearBit_image h hkeep hu]
    refine (clearBit_eq_iff.mp hclear).resolve_left fun heq => ?_
    exact xor_two_pow_ne u var (h.injective _ hxor u hu heq)
  rw [parity, parity, himage, testBit_xor_two_pow, testBit_xor_two_pow, decide_eq_true rfl,
    Bool.xor_true, Bool.xor_true]
  cases u.testBit var <;> cases (perm.getD u 0).testBit var <;> rfl

end LastVariable

def rightZero (perm : Array Nat) (var : Nat) : Vertex → Bool
  | .right _ => false
  | .left key => parity perm var key

theorem solves_rightZero (h : Table (2 ^ n) perm) (hvar : var < n)
    (hkeep : ∀ i < n, i ≠ var → KeepsBit n perm i) : Solves n perm var (rightZero perm var) := by
  intro u hu
  rw [rightEnd, leftEnd, clearBit_image h hkeep hu, rightZero, rightZero, Bool.false_xor]
  rcases clearBit_eq_or u var with ⟨hclear, -⟩ | ⟨hclear, -⟩
  · rw [hclear]
  · rw [hclear, parity_xor h hkeep hu hvar]

-- Every search starts from a right vertex with the colour false, as this solution has it.
theorem progress_rightZero (h : Table (2 ^ n) perm) (hvar : var < n)
    (hkeep : ∀ i < n, i ≠ var → KeepsBit n perm i) :
    Progress n perm var (rightZero perm var) [] ⟨colour perm var, []⟩ := by
  have hsol := solves_rightZero h hvar hkeep
  rw [colour, h.size_eq]
  refine List.foldlRecOn (motive := fun c => Progress n perm var (rightZero perm var) [] ⟨c, []⟩)
    _ _ (progress_blank n perm var _) fun c hc start hstart => ?_
  exact (hc.colourFrom h hvar hsol (mem_starts_iff.mp hstart) fun _ => rfl).1

theorem decompose_right_eq_false (h : Table (2 ^ n) perm) (hvar : var < n)
    (hkeep : ∀ i < n, i ≠ var → KeepsBit n perm i) (k : Nat) :
    (decompose perm var).1.getD k false = false := by
  have hagrees := (progress_rightZero h hvar hkeep).agrees (.right k)
  rw [decompose, getD_values]
  cases hcolour : (colour perm var).right.getD k none with
  | none => rfl
  | some b => exact hagrees b hcolour

theorem isConst0_controlFunction {g : Array Bool} (hn : n ≤ TruthTable.maxVars)
    (hg : ∀ k, g.getD k false = false) : (controlFunction n var g).isConst0 = true := by
  have hpacked : (controlFunction n var g).Packed :=
    TruthTable.packed_tabulate _ (Nat.le_trans (Nat.sub_le n 1) hn)
  refine hpacked.isConst0_iff.mpr fun x hx => ?_
  exact (TruthTable.bit_tabulate _ hx).trans (hg _)

def sideSteps (side : Array Bool × Array Bool → Array Bool) (n : Nat) :
    Array Nat → List Nat → List Step
  | _, [] => []
  | perm, var :: vars =>
    ⟨var, controlFunction n var (side (decompose perm var))⟩ ::
      sideSteps side n (reduced perm var) vars

theorem stepsFrom_eq_sides (perm : Array Nat) (vars : List Nat) :
    stepsFrom n perm vars =
      sideSteps Prod.fst n perm vars ++ (sideSteps Prod.snd n perm vars).reverse := by
  induction vars generalizing perm with
  | nil => rfl
  | cons var vars ih =>
    have hmiddle := ih (reduced perm var)
    simp only [reduced] at hmiddle
    simp [stepsFrom, sideSteps, reduced, hmiddle]

section Sides

variable (side : Array Bool × Array Bool → Array Bool)

theorem length_sideSteps (perm : Array Nat) (vars : List Nat) :
    (sideSteps side n perm vars).length = vars.length := by
  induction vars generalizing perm with
  | nil => rfl
  | cons var vars ih => simp [sideSteps, ih]

theorem sideSteps_concat (perm : Array Nat) (vars : List Nat) (var : Nat) :
    sideSteps side n perm (vars ++ [var]) = sideSteps side n perm vars ++
      [⟨var, controlFunction n var (side (decompose (vars.foldl reduced perm) var))⟩] := by
  induction vars generalizing perm with
  | nil => rfl
  | cons first vars ih => simp [sideSteps, ih]

end Sides

section Calls

variable {α : Type} {m : Type → Type} [Monad m]

def called (perm : Permutation) : List Step :=
  (steps perm).filter fun s => !s.function.isConst0

def circuitBy (realize : Step → m (List (Gate α))) (perm : Permutation) : m (List (Gate α)) := do
  return (← (steps perm).mapM fun s =>
    if s.function.isConst0 then pure [] else realize s).flatten

theorem flatten_mapM_filter [LawfulMonad m] (realize : Step → m (List (Gate α)))
    (steps : List Step) :
    List.flatten <$> steps.mapM (fun s => if s.function.isConst0 then pure [] else realize s) =
      List.flatten <$> (steps.filter fun s => !s.function.isConst0).mapM realize := by
  induction steps with
  | nil => rfl
  | cons s steps ih =>
    cases hconst : s.function.isConst0 with
    | true =>
      rw [List.mapM_cons, List.filter_cons_of_neg (by simp [hconst]), ← ih]
      simp [hconst]
    | false =>
      have hrest : ∀ (gates : List (Gate α)) (rest : m (List (List (Gate α)))),
          (rest >>= fun r => pure (gates ++ r.flatten)) =
            (gates ++ ·) <$> List.flatten <$> rest := by
        intro gates rest
        simp
      rw [List.mapM_cons, List.filter_cons_of_pos (by simp [hconst]), List.mapM_cons]
      simp only [hconst, Bool.false_eq_true, if_false, map_bind, map_pure, List.flatten_cons]
      exact bind_congr fun gates => by rw [hrest, hrest, ih]

theorem circuitBy_eq [LawfulMonad m] (realize : Step → m (List (Gate α))) (perm : Permutation) :
    circuitBy realize perm = List.flatten <$> (called perm).mapM realize := by
  rw [called, ← flatten_mapM_filter]
  simp [circuitBy]

def Step.realized [Angle α] (numVars : Nat) (strategy : Strategy) (s : Step) :
    Except SynthesisError (List (Gate α)) := do
  return (← SingleTarget.circuit s.function strategy).map
    (Gate.relabel fun w => (wires numVars s.target).toArray.getD w 0)

theorem circuit_eq_circuitBy [Angle α] (perm : Permutation) (strategy : Strategy) :
    circuit (α := α) perm strategy = circuitBy (Step.realized perm.numVars strategy) perm := rfl

end Calls

theorem exists_steps_eq {k : Nat} (hk : k + 1 ≤ TruthTable.maxVars)
    (h : Table (2 ^ (k + 1)) perm) :
    ∃ rights last lefts, stepsFrom (k + 1) perm (List.range (k + 1)) = rights ++ last :: lefts ∧
      rights.length = k ∧ lefts.length = k + 1 ∧
      last = ⟨k, controlFunction (k + 1) k
        (decompose ((List.range k).foldl reduced perm) k).1⟩ ∧
      last.function.isConst0 = true := by
  have hvars : ∀ v ∈ List.range k, v < k + 1 := fun v hv =>
    Nat.lt_succ_of_lt (List.mem_range.mp hv)
  obtain ⟨htable, -, hkept⟩ := foldl_reduced_spec h hvars
  have hkeep : ∀ i < k + 1, i ≠ k → KeepsBit (k + 1) ((List.range k).foldl reduced perm) i :=
    fun i hi hne => hkept i (List.mem_range.mpr (by omega))
  refine ⟨sideSteps Prod.fst (k + 1) perm (List.range k), _,
    (sideSteps Prod.snd (k + 1) perm (List.range (k + 1))).reverse, ?_, ?_, ?_, rfl, ?_⟩
  · rw [stepsFrom_eq_sides, List.range_succ, sideSteps_concat, List.append_assoc]
    rfl
  · rw [length_sideSteps, List.length_range]
  · rw [List.length_reverse, length_sideSteps, List.length_range]
  · exact isConst0_controlFunction hk
      (decompose_right_eq_false htable (Nat.lt_succ_self k) hkeep)

theorem strategy_called_at_most {α : Type} [Angle α] {n : Nat} {values : List Nat} (hn : 1 ≤ n)
    (hmax : n ≤ 20) (hperm : values.Perm (List.range (2 ^ n))) :
    ∃ perm : Permutation, Permutation.ofValues values = .ok perm ∧ perm.numVars = n ∧
      (∃ rights last lefts, steps perm = rights ++ last :: lefts ∧
        rights.length = n - 1 ∧ lefts.length = n ∧
        last = ⟨n - 1, controlFunction n (n - 1)
          (decompose ((List.range (n - 1)).foldl reduced perm.values) (n - 1)).1⟩ ∧
        last.function.isConst0 = true) ∧
      (called perm).length ≤ 2 * n - 1 ∧
      (∀ (m : Type → Type) [Monad m] [LawfulMonad m] (realize : Step → m (List (Gate α))),
        circuitBy realize perm = List.flatten <$> (called perm).mapM realize) ∧
      ∀ strategy, circuit (α := α) perm strategy = circuitBy (Step.realized n strategy) perm := by
  obtain ⟨k, rfl⟩ : ∃ k, n = k + 1 := ⟨n - 1, by omega⟩
  obtain ⟨rights, last, lefts, hsteps, hrights, hlefts, heq, hlast⟩ :=
    exists_steps_eq hmax (table_of_perm hperm)
  refine ⟨⟨k + 1, values.toArray⟩, ofValues_of_perm hn hmax hperm, rfl,
    ⟨rights, last, lefts, hsteps, hrights, hlefts, heq, hlast⟩, ?_,
    fun m _ _ realize => circuitBy_eq realize _, fun strategy => circuit_eq_circuitBy _ strategy⟩
  have hmem : last ∈ steps ⟨k + 1, values.toArray⟩ := by
    rw [steps, hsteps]
    exact List.mem_append_right rights List.mem_cons_self
  have hlt : (called ⟨k + 1, values.toArray⟩).length < (steps ⟨k + 1, values.toArray⟩).length :=
    List.length_filter_lt_length_iff_exists.mpr ⟨last, hmem, by simp [hlast]⟩
  rw [steps, hsteps, List.length_append, List.length_cons] at hlt
  omega

theorem strategy_called_at_most_three_bits :
    [7, 1, 4, 3, 0, 2, 6, 5].Perm (List.range (2 ^ 3)) ∧
      ∃ perm : Permutation, Permutation.ofValues [7, 1, 4, 3, 0, 2, 6, 5] = .ok perm ∧
        (called perm).length ≤ 5 ∧
        ∀ strategy, circuit (α := Float) perm strategy =
          List.flatten <$> (called perm).mapM (Step.realized 3 strategy) := by
  have hperm : [7, 1, 4, 3, 0, 2, 6, 5].Perm (List.range (2 ^ 3)) := by decide
  obtain ⟨perm, hok, -, -, hcalled, hmap, hcircuit⟩ :=
    strategy_called_at_most (α := Float) (by decide) (by decide) hperm
  exact ⟨hperm, perm, hok, hcalled, fun strategy => by rw [hcircuit, hmap]⟩

end ReversibleSynthesis.Decomposition
