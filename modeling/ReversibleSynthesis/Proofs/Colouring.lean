import Mathlib.GroupTheory.Perm.Cycle.Basic
import ReversibleSynthesis.Proofs.Permutation
import ReversibleSynthesis.Synthesis.Decomposition

namespace ReversibleSynthesis.Decomposition

open Permutation

section Alternation

variable {β : Type} {f g : Equiv.Perm β}

theorem apply_zpow_mul (hf : f * f = 1) (hg : g * g = 1) (k : ℤ) (x : β) :
    f (((f * g) ^ k) x) = ((f * g) ^ (-k)) (f x) := by
  have hinv : f⁻¹ = f := inv_eq_of_mul_eq_one_left hf
  have hconj : f * (f * g) * f⁻¹ = (f * g)⁻¹ := by
    rw [← mul_assoc, hf, one_mul, mul_inv_rev, inv_eq_of_mul_eq_one_left hg]
  have hpow : f * (f * g) ^ k = (f * g) ^ (-k) * f := by
    rw [zpow_neg, ← inv_zpow, ← hconj, conj_zpow, mul_assoc, mul_assoc, hinv, hf, mul_one]
  exact congrArg (· x) hpow

-- Half way between `x` and `f x` on a cycle of `f * g` lies a fixed point of `f` or of `g`.
theorem not_sameCycle_apply (hf : f * f = 1) (hg : g * g = 1) (hfx : ∀ x, f x ≠ x)
    (hgx : ∀ x, g x ≠ x) (x : β) : ¬ (f * g).SameCycle x (f x) := by
  rintro ⟨k, hk⟩
  obtain ⟨j, rfl | rfl⟩ := Int.even_or_odd' k
  · refine hfx (((f * g) ^ j) x) ?_
    rw [apply_zpow_mul hf hg, ← hk, ← Equiv.Perm.mul_apply, ← zpow_add]
    congr 2
    ring
  · have hnext : g (((f * g) ^ j) x) = f (((f * g) ^ (1 + j)) x) := by
      rw [zpow_one_add]
      exact (congrArg (· (g (((f * g) ^ j) x))) hf).symm
    refine hgx (((f * g) ^ j) x) ?_
    rw [hnext, apply_zpow_mul hf hg, ← hk, ← Equiv.Perm.mul_apply, ← zpow_add]
    congr 2
    ring

theorem exists_alternating [LinearOrder β] (hf : f * f = 1) (hg : g * g = 1)
    (hfx : ∀ x, f x ≠ x) (hgx : ∀ x, g x ≠ x) :
    ∃ S : β → Bool, (∀ x, S (f x) = !S x) ∧ ∀ x, S (g x) = !S x := by
  let cycle : Setoid β := Equiv.Perm.SameCycle.setoid (f * g)
  let first (x : β) : β := (Quotient.mk cycle x).out
  have hsame {x y : β} (h : (f * g).SameCycle x y) : first x = first y :=
    congrArg Quotient.out (Quotient.sound h)
  have hff (x : β) : f (f x) = x := congrArg (· x) hf
  have hne (x : β) : first x ≠ first (f x) := by
    intro heq
    exact not_sameCycle_apply hf hg hfx hgx x (Quotient.exact (Quotient.out_injective heq))
  have hflip (x : β) : decide (first (f x) < first x) = !decide (first x < first (f x)) := by
    rcases lt_or_gt_of_ne (hne x) with hlt | hgt
    · simp [hlt, hlt.le]
    · simp [hgt, hgt.le]
  -- `g x` lies on the cycle of `f x`, and `f (g x)` on that of `x`
  have hleft (x : β) : first (g x) = first (f x) := by
    refine hsame ⟨1, ?_⟩
    rw [zpow_one, Equiv.Perm.mul_apply]
    exact congrArg f (congrArg (· x) hg)
  have hright (x : β) : first (f (g x)) = first x := (hsame ⟨1, by rw [zpow_one]; rfl⟩).symm
  refine ⟨fun x => decide (first x < first (f x)), fun x => ?_, fun x => ?_⟩
  · simp only [hff, hflip]
  · simp only [hleft, hright, hflip]

end Alternation

variable {n var : Nat} {perm : Array Nat}

def partner (perm : Array Nat) (var u : Nat) : Nat :=
  (invert perm).getD (perm.getD u 0 ^^^ 2 ^ var) 0

section Partner

variable (h : Table (2 ^ n) perm) (hvar : var < n)

include h hvar

theorem partner_lt {u : Nat} (hu : u < 2 ^ n) : partner perm var u < 2 ^ n :=
  invert_lt h (xor_two_pow_lt (h.lt u hu) hvar)

theorem getD_partner {u : Nat} (hu : u < 2 ^ n) :
    perm.getD (partner perm var u) 0 = perm.getD u 0 ^^^ 2 ^ var :=
  getD_getD_invert h (xor_two_pow_lt (h.lt u hu) hvar)

theorem partner_partner {u : Nat} (hu : u < 2 ^ n) : partner perm var (partner perm var u) = u := by
  rw [partner, getD_partner h hvar hu, xor_two_pow_twice, getD_invert h hu]

theorem partner_ne {u : Nat} (hu : u < 2 ^ n) : partner perm var u ≠ u := by
  intro heq
  have himage := getD_partner h hvar hu
  rw [heq] at himage
  exact xor_two_pow_ne _ _ himage.symm

theorem exists_alternating_inputs : ∃ S : Nat → Bool, ∀ u < 2 ^ n,
    S (u ^^^ 2 ^ var) = !S u ∧ S (partner perm var u) = !S u := by
  let toggled (u : Fin (2 ^ n)) : Fin (2 ^ n) := ⟨u ^^^ 2 ^ var, xor_two_pow_lt u.isLt hvar⟩
  let paired (u : Fin (2 ^ n)) : Fin (2 ^ n) := ⟨partner perm var u, partner_lt h hvar u.isLt⟩
  have htoggled : Function.Involutive toggled := fun u => Fin.ext (xor_two_pow_twice u var)
  have hpaired : Function.Involutive paired := fun u => Fin.ext (partner_partner h hvar u.isLt)
  obtain ⟨S, hS, hS'⟩ := exists_alternating
    (Equiv.ext htoggled : htoggled.toPerm * htoggled.toPerm = 1)
    (Equiv.ext hpaired : hpaired.toPerm * hpaired.toPerm = 1)
    (fun u heq => xor_two_pow_ne u var (Fin.ext_iff.mp heq))
    (fun u heq => partner_ne h hvar u.isLt (Fin.ext_iff.mp heq))
  refine ⟨fun u => if hu : u < 2 ^ n then S ⟨u, hu⟩ else false, fun u hu => ?_⟩
  simp only [dif_pos hu, dif_pos (xor_two_pow_lt hu hvar), dif_pos (partner_lt h hvar hu)]
  exact ⟨hS ⟨u, hu⟩, hS' ⟨u, hu⟩⟩

end Partner

def rightEnd (var u : Nat) : Vertex := .right (clearBit u var)

def leftEnd (perm : Array Nat) (var u : Nat) : Vertex := .left (clearBit (perm.getD u 0) var)

def Solves (n : Nat) (perm : Array Nat) (var : Nat) (sol : Vertex → Bool) : Prop :=
  ∀ u < 2 ^ n, (sol (rightEnd var u) ^^ sol (leftEnd perm var u)) = parity perm var u

theorem clearBit_eq_or (u var : Nat) :
    clearBit u var = u ∧ u.testBit var = false ∨
      clearBit u var = u ^^^ 2 ^ var ∧ u.testBit var = true := by
  rw [clearBit_eq]
  cases hbit : u.testBit var with
  | false => exact .inl ⟨rfl, rfl⟩
  | true => exact .inr ⟨sub_two_pow_eq_xor hbit, rfl⟩

def ofAlternating (S : Nat → Bool) (inverse : Array Nat) : Vertex → Bool
  | .right key => S key
  | .left key => S (inverse.getD key 0)

theorem exists_solves (h : Table (2 ^ n) perm) (hvar : var < n) :
    ∃ sol, Solves n perm var sol := by
  obtain ⟨S, hS⟩ := exists_alternating_inputs h hvar
  refine ⟨ofAlternating S (invert perm), fun u hu => ?_⟩
  have hright : ofAlternating S (invert perm) (rightEnd var u) = (S u ^^ u.testBit var) := by
    change S (clearBit u var) = _
    rcases clearBit_eq_or u var with ⟨hclear, hbit⟩ | ⟨hclear, hbit⟩
    · rw [hclear, hbit, Bool.xor_false]
    · rw [hclear, hbit, Bool.xor_true, (hS u hu).1]
  have hleft : ofAlternating S (invert perm) (leftEnd perm var u) =
      (S u ^^ (perm.getD u 0).testBit var) := by
    change S ((invert perm).getD (clearBit (perm.getD u 0) var) 0) = _
    rcases clearBit_eq_or (perm.getD u 0) var with ⟨hclear, hbit⟩ | ⟨hclear, hbit⟩
    · rw [hclear, hbit, Bool.xor_false, getD_invert h hu]
    · rw [hclear, hbit, Bool.xor_true]
      exact (hS u hu).2
  rw [hright, hleft, parity]
  cases S u <;> cases u.testBit var <;> cases (perm.getD u 0).testBit var <;> rfl

inductive Joined (n : Nat) (perm : Array Nat) (var : Nat) : Nat → Vertex → Vertex → Prop
  | toLeft {u : Nat} : u < 2 ^ n → Joined n perm var u (rightEnd var u) (leftEnd perm var u)
  | toRight {u : Nat} : u < 2 ^ n → Joined n perm var u (leftEnd perm var u) (rightEnd var u)

theorem Solves.eq_of_joined {sol : Vertex → Bool} (hsol : Solves n perm var sol) {u : Nat}
    {v w : Vertex} (huvw : Joined n perm var u v w) :
    sol w = (sol v != parity perm var u) := by
  cases huvw with
  | toLeft hu =>
    rw [← hsol u hu]
    cases sol (rightEnd var u) <;> cases sol (leftEnd perm var u) <;> rfl
  | toRight hu =>
    rw [← hsol u hu]
    cases sol (rightEnd var u) <;> cases sol (leftEnd perm var u) <;> rfl

def Vertex.key : Vertex → Nat
  | .right key => key
  | .left key => key

def Vertex.Valid (n var : Nat) (v : Vertex) : Prop := v.key < 2 ^ n ∧ v.key.testBit var = false

theorem valid_clearBit {m : Nat} (hm : m < 2 ^ n) :
    clearBit m var < 2 ^ n ∧ (clearBit m var).testBit var = false :=
  ⟨clearBit_lt hm, by simp [testBit_clearBit]⟩

theorem Joined.valid (h : Table (2 ^ n) perm) {u : Nat} {v w : Vertex}
    (huvw : Joined n perm var u v w) : w.Valid n var := by
  cases huvw with
  | toLeft hu => exact valid_clearBit (h.lt u hu)
  | toRight hu => exact valid_clearBit hu

theorem clearBit_eq_iff_of_testBit_eq_false {m key : Nat} (hkey : key.testBit var = false) :
    clearBit m var = key ↔ m = key ∨ m = key ||| 2 ^ var := by
  have hor : key ||| 2 ^ var = key ^^^ 2 ^ var := by
    refine Nat.eq_of_testBit_eq fun i => ?_
    rw [Nat.testBit_or, testBit_xor_two_pow, Nat.testBit_two_pow]
    rcases eq_or_ne i var with rfl | hne
    · simp [hkey]
    · simp [hne, hne.symm]
  rw [hor, ← clearBit_eq_iff, clearBit_of_testBit_eq_false hkey]

theorem mem_edges_iff (h : Table (2 ^ n) perm) (hvar : var < n) {v : Vertex} (hv : v.Valid n var)
    {u : Nat} {w : Vertex} :
    (u, w) ∈ edges perm (invert perm) var v ↔ Joined n perm var u v w := by
  obtain ⟨hlt, hbit⟩ := hv
  have hkeys : ∀ m ∈ [v.key, v.key ||| 2 ^ var], m < 2 ^ n := by
    simp only [List.forall_mem_cons, List.not_mem_nil, false_implies, implies_true, and_true]
    exact ⟨hlt, Nat.or_lt_two_pow hlt (Nat.pow_lt_pow_right (by decide) hvar)⟩
  have hends : ∀ m, m ∈ [v.key, v.key ||| 2 ^ var] ↔ clearBit m var = v.key := by
    intro m
    rw [clearBit_eq_iff_of_testBit_eq_false hbit]
    simp
  cases v with
  | right key =>
    constructor
    · intro hmem
      obtain ⟨m, hm, heq⟩ := List.mem_map.mp hmem
      obtain ⟨rfl, rfl⟩ := Prod.mk.inj heq
      rw [← show rightEnd var m = .right key from congrArg Vertex.right ((hends m).mp hm)]
      exact .toLeft (hkeys m hm)
    · rintro (⟨hu⟩ | ⟨hu⟩)
      exact List.mem_map.mpr ⟨u, (hends u).mpr rfl, rfl⟩
  | left key =>
    constructor
    · intro hmem
      obtain ⟨m, hm, heq⟩ := List.mem_map.mp hmem
      obtain ⟨rfl, rfl⟩ := Prod.mk.inj heq
      have himage := getD_getD_invert h (hkeys m hm)
      have hend : leftEnd perm var ((invert perm).getD m 0) = .left key :=
        congrArg Vertex.left (by rw [himage]; exact (hends m).mp hm)
      rw [← hend]
      exact .toRight (invert_lt h (hkeys m hm))
    · rintro (⟨hu⟩ | ⟨hu⟩)
      refine List.mem_map.mpr ⟨perm.getD u 0, (hends _).mpr rfl, ?_⟩
      rw [getD_invert h hu]
      rfl

end ReversibleSynthesis.Decomposition
