import Mathlib.Algebra.BigOperators.Ring.Finset
import Mathlib.Tactic.Ring
import ReversibleSynthesis.Cube.Walsh
import ReversibleSynthesis.Proofs.Cube

namespace ReversibleSynthesis.Cube

open Finset

variable {R : Type} [CommRing R]

def sign (b : Bool) : R := if b then -1 else 1

theorem sign_false : (sign false : R) = 1 := rfl

theorem sign_xor (b c : Bool) : (sign (b ^^ c) : R) = sign b * sign c := by
  cases b <;> cases c <;> simp [sign]

theorem sign_mul (b : Bool) (a : R) : sign b * a = if b then -a else a := by
  cases b <;> simp [sign]

theorem neg_one_pow_weight (w a b : Nat) :
    (-1 : R) ^ weight w (a &&& b) = sign (dot w a b.testBit) := by
  rw [← oddOverlap_eq_dot, oddOverlap, neg_one_pow_eq_pow_mod_two]
  rcases Nat.mod_two_eq_zero_or_one (weight w (a &&& b)) with h | h <;> simp [h, sign]

theorem sum_range_two_pow_succ {M : Type} [AddCommMonoid M] (f : Nat → M) (n : Nat) :
    ∑ x ∈ range (2 ^ (n + 1)), f x = ∑ x ∈ range (2 ^ n), (f x + f (2 ^ n + x)) := by
  rw [Nat.pow_succ, Nat.mul_two, sum_range_add, sum_add_distrib]

theorem walsh_join {n : Nat} (lo hi : Cube R n) :
    (join lo hi).walsh =
      join (lo.walsh.zipWith (· + ·) hi.walsh) (lo.walsh.zipWith (· - ·) hi.walsh) := rfl

theorem valueAt_walsh {n : Nat} (c : Cube R n) (s : State) :
    c.walsh.valueAt s = ∑ x ∈ range (2 ^ n), sign (dot n x s) * c.get x := by
  induction c with
  | point a => simp [walsh, valueAt, get, dot, xorSum, sign]
  | @join n lo hi ihlo ihhi =>
    have hsum : ∑ x ∈ range (2 ^ (n + 1)), sign (dot (n + 1) x s) * (join lo hi).get x =
        ∑ x ∈ range (2 ^ n), (sign (dot n x s) * lo.get x +
          sign (s n) * (sign (dot n x s) * hi.get x)) := by
      rw [sum_range_two_pow_succ]
      refine Finset.sum_congr rfl fun x hx => ?_
      have hx := mem_range.mp hx
      rw [dot_succ_of_lt hx, dot_succ_add hx, get_join_of_lt lo hi hx, get_join_add lo hi hx,
        sign_xor]
      ring
    rw [hsum, sum_add_distrib, ← mul_sum, ← ihlo, ← ihhi, sign_mul, walsh_join, valueAt,
      valueAt_zipWith, valueAt_zipWith]
    cases s n with
    | false => rfl
    | true => exact sub_eq_add_neg _ _

theorem valueAt_walsh_add {n : Nat} (c d : Cube R n) (s : State) :
    (c.zipWith (· + ·) d).walsh.valueAt s = c.walsh.valueAt s + d.walsh.valueAt s := by
  simp only [valueAt_walsh, get_eq_valueAt, valueAt_zipWith, mul_add, sum_add_distrib]

theorem valueAt_walsh_sub {n : Nat} (c d : Cube R n) (s : State) :
    (c.zipWith (· - ·) d).walsh.valueAt s = c.walsh.valueAt s - d.walsh.valueAt s := by
  simp only [valueAt_walsh, get_eq_valueAt, valueAt_zipWith, mul_sub, sum_sub_distrib]

theorem valueAt_walsh_walsh {n : Nat} (c : Cube R n) (s : State) :
    c.walsh.walsh.valueAt s = 2 ^ n * c.valueAt s := by
  induction c with
  | point a => simp [walsh, valueAt]
  | @join n lo hi ihlo ihhi =>
    rw [walsh_join, walsh_join, valueAt, valueAt_zipWith, valueAt_zipWith, valueAt_walsh_add,
      valueAt_walsh_sub, ihlo, ihhi, valueAt]
    cases s n with
    | false =>
      simp only [Bool.false_eq_true, if_false]
      ring
    | true =>
      simp only [if_true]
      ring

theorem sum_odd_walsh {n : Nat} (c : Cube R n) (s : State) :
    ∑ x ∈ range (2 ^ n), (if dot n x s then -2 * c.walsh.get x else 0) =
      2 ^ n * (c.valueAt s - c.valueAt fun _ => false) := by
  have hterm : ∀ x, (if dot n x s then -2 * c.walsh.get x else 0) =
      sign (dot n x s) * c.walsh.get x - sign (dot n x fun _ => false) * c.walsh.get x := by
    intro x
    rw [dot_zero_state, sign_false]
    cases dot n x s with
    | false => simp [sign]
    | true =>
      simp only [sign, if_true]
      ring
  simp only [hterm, sum_sub_distrib, ← valueAt_walsh, valueAt_walsh_walsh, mul_sub]

theorem two_mul_card_odd_le (n : Nat) (s : State) :
    2 * ((range (2 ^ n)).filter fun x => dot n x s = true).card ≤ 2 ^ n := by
  induction n with
  | zero => simp [dot, xorSum]
  | succ n ih =>
    have hsplit : ∀ x ∈ range (2 ^ n),
        ((if dot (n + 1) x s = true then 1 else 0) +
          if dot (n + 1) (2 ^ n + x) s = true then 1 else 0) =
        if s n then 1 else 2 * if dot n x s = true then 1 else 0 := by
      intro x hx
      rw [dot_succ_of_lt (mem_range.mp hx), dot_succ_add (mem_range.mp hx)]
      cases s n <;> cases dot n x s <;> rfl
    rw [card_filter, sum_range_two_pow_succ, Finset.sum_congr rfl hsplit]
    cases s n with
    | false =>
      rw [card_filter] at ih
      simp only [Bool.false_eq_true, if_false, ← mul_sum]
      omega
    | true =>
      simp only [if_true, ← card_eq_sum_ones, card_range]
      omega

end ReversibleSynthesis.Cube
