import ReversibleSynthesis.Cube
import ReversibleSynthesis.Netlist.Run
import ReversibleSynthesis.Proofs.Bits

namespace ReversibleSynthesis.Cube

def valueAt {β : Type} : {n : Nat} → Cube β n → State → β
  | _, .point a, _ => a
  | _, .join (n := n) lo hi, s => if s n then hi.valueAt s else lo.valueAt s

theorem tabulateFrom_succ {β : Type} (f : Nat → β) (n base : Nat) :
    tabulateFrom f (n + 1) base =
      join (tabulateFrom f n base) (tabulateFrom f n (base + 2 ^ n)) := rfl

theorem valueAt_tabulateFrom {β : Type} (f : Nat → β) (n base : Nat) (s : State) :
    (tabulateFrom f n base).valueAt s = f (base + packBits s n) := by
  induction n generalizing base with
  | zero => rfl
  | succ n ih =>
    rw [tabulateFrom_succ, valueAt, ih, ih, packBits, Nat.one_shiftLeft]
    cases s n with
    | true => simp [Nat.add_assoc, Nat.add_comm]
    | false => simp

theorem valueAt_tabulate {β : Type} (f : Nat → β) (n : Nat) (s : State) :
    (tabulate n f).valueAt s = f (packBits s n) := by
  rw [tabulate, valueAt_tabulateFrom, Nat.zero_add]

theorem valueAt_congr {β : Type} {n : Nat} (c : Cube β n) {s t : State} (h : ∀ i < n, s i = t i) :
    c.valueAt s = c.valueAt t := by
  induction c with
  | point a => rfl
  | @join n lo hi ihlo ihhi =>
    rw [valueAt, valueAt, h n (Nat.lt_succ_self n), ihlo fun i hi => h i (Nat.lt_succ_of_lt hi),
      ihhi fun i hi => h i (Nat.lt_succ_of_lt hi)]

theorem valueAt_map {β γ : Type} (f : β → γ) {n : Nat} (c : Cube β n) (s : State) :
    (c.map f).valueAt s = f (c.valueAt s) := by
  induction c with
  | point a => rfl
  | join lo hi ihlo ihhi =>
    rw [map, valueAt, valueAt, ihlo, ihhi]
    split <;> rfl

theorem valueAt_zipWith {β γ δ : Type} (f : β → γ → δ) {n : Nat} (c : Cube β n) (d : Cube γ n)
    (s : State) : (c.zipWith f d).valueAt s = f (c.valueAt s) (d.valueAt s) := by
  induction c with
  | point a =>
    cases d with
    | point b => rfl
  | join lo hi ihlo ihhi =>
    cases d with
    | join lo' hi' =>
      rw [zipWith, valueAt, valueAt, valueAt, ihlo, ihhi]
      split <;> rfl

theorem get_eq_valueAt {β : Type} {n : Nat} (c : Cube β n) (x : Nat) :
    c.get x = c.valueAt x.testBit := by
  induction c with
  | point a => rfl
  | join lo hi ihlo ihhi => rw [get, valueAt, ihlo, ihhi]

theorem get_tabulate {β : Type} (f : Nat → β) {n x : Nat} (hx : x < 2 ^ n) :
    (tabulate n f).get x = f x := by
  rw [get_eq_valueAt, valueAt_tabulate, packBits_eq hx fun i _ => rfl]

theorem get_zipWith {β γ δ : Type} (f : β → γ → δ) {n : Nat} (c : Cube β n) (d : Cube γ n)
    (x : Nat) : (c.zipWith f d).get x = f (c.get x) (d.get x) := by
  rw [get_eq_valueAt, get_eq_valueAt, get_eq_valueAt, valueAt_zipWith]

theorem get_join_of_lt {β : Type} {n x : Nat} (lo hi : Cube β n) (hx : x < 2 ^ n) :
    (join lo hi).get x = lo.get x := by
  rw [get, Nat.testBit_lt_two_pow hx]
  rfl

theorem get_join_add {β : Type} {n x : Nat} (lo hi : Cube β n) (hx : x < 2 ^ n) :
    (join lo hi).get (2 ^ n + x) = hi.get x := by
  rw [get, Nat.testBit_two_pow_add_eq, Nat.testBit_lt_two_pow hx, if_pos (by rfl), get_eq_valueAt,
    get_eq_valueAt]
  exact hi.valueAt_congr fun i hi => Nat.testBit_two_pow_add_gt hi x

theorem toListAppend_eq {β : Type} {n : Nat} (c : Cube β n) (rest : List β) :
    c.toListAppend rest = (List.range (2 ^ n)).map c.get ++ rest := by
  induction c generalizing rest with
  | point a => rfl
  | @join n lo hi ihlo ihhi =>
    have hlow : (List.range (2 ^ n)).map (join lo hi).get = (List.range (2 ^ n)).map lo.get :=
      List.map_congr_left fun x hx => get_join_of_lt lo hi (List.mem_range.mp hx)
    have hhigh : (List.range (2 ^ n)).map ((join lo hi).get ∘ (2 ^ n + ·)) =
        (List.range (2 ^ n)).map hi.get :=
      List.map_congr_left fun x hx => get_join_add lo hi (List.mem_range.mp hx)
    rw [toListAppend, ihlo, ihhi, Nat.pow_succ, Nat.mul_two, List.range_add, List.map_append,
      List.map_map, hlow, hhigh, List.append_assoc]

theorem toList_eq {β : Type} {n : Nat} (c : Cube β n) :
    c.toList = (List.range (2 ^ n)).map c.get := by
  rw [toList, toListAppend_eq, List.append_nil]

theorem length_toList {β : Type} {n : Nat} (c : Cube β n) : c.toList.length = 2 ^ n := by
  rw [toList_eq, List.length_map, List.length_range]

theorem toList_join {β : Type} {n : Nat} (lo hi : Cube β n) :
    (join lo hi).toList = lo.toList ++ hi.toList := by
  rw [toList, toListAppend, toListAppend_eq, ← toList_eq]
  rfl

theorem toList_zipWith {β γ δ : Type} (f : β → γ → δ) {n : Nat} (c : Cube β n) (d : Cube γ n) :
    (c.zipWith f d).toList = c.toList.zipWith f d.toList := by
  rw [toList_eq, toList_eq, toList_eq, List.zipWith_map, List.zipWith_self]
  exact List.map_congr_left fun x _ => get_zipWith f c d x

end ReversibleSynthesis.Cube
