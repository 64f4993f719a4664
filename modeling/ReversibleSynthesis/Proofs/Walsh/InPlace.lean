import ReversibleSynthesis.Proofs.Walsh

namespace ReversibleSynthesis

namespace Butterfly

variable {α : Type} [Add α] [Sub α]

def combine (half : Nat) (v : List α) (j : Nat) : List α :=
  match v[j]?, v[j + half]? with
  | some a, some b => (v.set j (a + b)).set (j + half) (a - b)
  | _, _ => v

def lowerPlaces (half length : Nat) : List Nat :=
  (List.range (length / (2 * half))).flatMap fun block => List.range' (2 * half * block) half

def pass (half : Nat) (v : List α) : List α := (lowerPlaces half v.length).foldl (combine half) v

theorem combine_eq {half j : Nat} {v : List α} {a b : α} (ha : v[j]? = some a)
    (hb : v[j + half]? = some b) :
    combine half v j = (v.set j (a + b)).set (j + half) (a - b) := by
  rw [combine, ha, hb]

theorem length_combine (half : Nat) (v : List α) (j : Nat) :
    (combine half v j).length = v.length := by
  unfold combine
  split
  · rw [List.length_set, List.length_set]
  · rfl

theorem length_foldl_combine (half : Nat) (places : List Nat) (v : List α) :
    (places.foldl (combine half) v).length = v.length := by
  induction places generalizing v with
  | nil => rfl
  | cons j places ih => rw [List.foldl_cons, ih, length_combine]

theorem length_pass (half : Nat) (v : List α) : (pass half v).length = v.length :=
  length_foldl_combine half _ v

def passesFrom (half : Nat) (v : List α) : List α :=
  if 0 < half ∧ half < v.length then passesFrom (2 * half) (pass half v) else v
termination_by v.length - half
decreasing_by
  rw [length_pass]
  omega

def transform (v : List α) : List α := passesFrom 1 v

theorem passesFrom_of_lt {half : Nat} {v : List α} (hpos : 0 < half) (hlt : half < v.length) :
    passesFrom half v = passesFrom (2 * half) (pass half v) := by
  rw [passesFrom, if_pos ⟨hpos, hlt⟩]

theorem passesFrom_of_le {half : Nat} {v : List α} (hle : v.length ≤ half) :
    passesFrom half v = v := by
  rw [passesFrom, if_neg fun h => Nat.not_lt.mpr hle h.2]

theorem combine_append_left {half j : Nat} {a : List α} (b : List α) (hj : j + half < a.length) :
    combine half (a ++ b) j = combine half a j ++ b := by
  have hlow : j < a.length := Nat.lt_of_le_of_lt (Nat.le_add_right j half) hj
  have ha := List.getElem?_eq_getElem hlow
  have hb := List.getElem?_eq_getElem hj
  rw [combine_eq ha hb, combine_eq (List.getElem?_append_left hlow ▸ ha)
    (List.getElem?_append_left hj ▸ hb), List.set_append_left _ _ hlow,
    List.set_append_left _ _ (by rwa [List.length_set])]

theorem combine_append_right (half : Nat) (a b : List α) (j : Nat) :
    combine half (a ++ b) (a.length + j) = a ++ combine half b j := by
  have hget : ∀ i, (a ++ b)[a.length + i]? = b[i]? := fun i => by
    rw [List.getElem?_append_right (Nat.le_add_right _ i), Nat.add_sub_cancel_left]
  have hset : ∀ (c : List α) (i : Nat) (x : α), (a ++ c).set (a.length + i) x = a ++ c.set i x :=
    fun c i x => by
      rw [List.set_append_right _ _ (Nat.le_add_right _ i), Nat.add_sub_cancel_left]
  rw [combine, combine, Nat.add_assoc, hget, hget]
  split
  · rw [hset, hset]
  · rfl

theorem foldl_combine_append_left {half : Nat} {places : List Nat} {a : List α} (b : List α)
    (h : ∀ j ∈ places, j + half < a.length) :
    places.foldl (combine half) (a ++ b) = places.foldl (combine half) a ++ b := by
  induction places generalizing a with
  | nil => rfl
  | cons j places ih =>
    rw [List.foldl_cons, List.foldl_cons, combine_append_left b (h j List.mem_cons_self), ih]
    intro i hi
    rw [length_combine]
    exact h i (List.mem_cons_of_mem j hi)

theorem foldl_combine_append_right (half : Nat) (places : List Nat) (a b : List α) :
    (places.map (a.length + ·)).foldl (combine half) (a ++ b) =
      a ++ places.foldl (combine half) b := by
  induction places generalizing b with
  | nil => rfl
  | cons j places ih => rw [List.map_cons, List.foldl_cons, combine_append_right, ih, List.foldl_cons]

theorem lowerPlaces_mul_add {half : Nat} (hpos : 0 < half) (blocks length : Nat) :
    lowerPlaces half (2 * half * blocks + length) =
      lowerPlaces half (2 * half * blocks) ++
        (lowerPlaces half length).map (2 * half * blocks + ·) := by
  have hblock : 0 < 2 * half := Nat.mul_pos Nat.two_pos hpos
  simp only [lowerPlaces, Nat.mul_add_div hblock, Nat.mul_div_cancel_left _ hblock, List.range_add,
    List.flatMap_append, List.flatMap_map, List.map_flatMap, List.map_add_range', Nat.mul_add]

theorem add_lt_of_mem_lowerPlaces {half length j : Nat} (h : j ∈ lowerPlaces half length) :
    j + half < length := by
  obtain ⟨block, hblock, hj⟩ := List.mem_flatMap.mp h
  have hmul := Nat.mul_le_of_le_div _ _ _ (Nat.succ_le_of_lt (List.mem_range.mp hblock))
  rw [Nat.succ_mul, Nat.mul_comm] at hmul
  have hlt := (List.mem_range'_1.mp hj).2
  omega

theorem pass_append {half blocks : Nat} (hpos : 0 < half) {a : List α}
    (ha : a.length = 2 * half * blocks) (b : List α) :
    pass half (a ++ b) = pass half a ++ pass half b := by
  have hleft : ∀ j ∈ lowerPlaces half a.length, j + half < a.length :=
    fun j => add_lt_of_mem_lowerPlaces
  have hright := foldl_combine_append_right half (lowerPlaces half b.length) (pass half a) b
  rw [length_pass] at hright
  rw [pass, List.length_append, ha, lowerPlaces_mul_add hpos, ← ha, List.foldl_append,
    foldl_combine_append_left b hleft]
  exact hright

theorem combine_between (front middle back : List α) (x y : α) :
    combine (middle.length + 1) (front ++ x :: (middle ++ y :: back)) front.length =
      front ++ (x + y) :: (middle ++ (x - y) :: back) := by
  have hfront := combine_append_right (middle.length + 1) front (x :: (middle ++ y :: back)) 0
  exact hfront.trans (by simp [combine])

-- Within a block the sums grow in front of the values still to be combined, and the differences
-- behind them.
theorem foldl_combine_block {half : Nat} (sums differences : List α) {a b : List α}
    (hdone : sums.length = differences.length) (hrest : a.length = b.length)
    (hhalf : sums.length + a.length = half) :
    (List.range' sums.length a.length).foldl (combine half) (sums ++ (a ++ (differences ++ b))) =
      sums ++ (a.zipWith (· + ·) b ++ (differences ++ a.zipWith (· - ·) b)) := by
  induction a generalizing sums differences b with
  | nil =>
    rw [List.length_eq_zero_iff.mp hrest.symm]
    rfl
  | cons x a ih =>
    cases b with
    | nil => cases hrest
    | cons y b =>
      have hdist : half = (a ++ differences).length + 1 := by
        rw [← hhalf, List.length_append, List.length_cons, hdone]
        omega
      have hstep := combine_between sums (a ++ differences) b x y
      rw [← hdist, List.append_assoc, List.append_assoc] at hstep
      have hsums : (sums ++ [x + y]).length + a.length = half := by
        rw [← hhalf, List.length_append, List.length_singleton, List.length_cons]
        omega
      have hnext := ih (sums ++ [x + y]) (differences ++ [x - y]) (by simp [hdone])
        (Nat.succ.inj hrest) hsums
      simp only [List.length_append, List.length_singleton, List.append_assoc,
        List.singleton_append] at hnext
      rw [List.length_cons, List.range'_succ, List.foldl_cons, List.cons_append, hstep, hnext]
      rfl

theorem pass_single {half : Nat} (hpos : 0 < half) {a b : List α} (ha : a.length = half)
    (hb : b.length = half) :
    pass half (a ++ b) = a.zipWith (· + ·) b ++ a.zipWith (· - ·) b := by
  have hplaces : lowerPlaces half (a ++ b).length = List.range' 0 a.length := by
    rw [List.length_append, ha, hb, ← Nat.two_mul, lowerPlaces,
      Nat.div_self (Nat.mul_pos Nat.two_pos hpos)]
    simp
  rw [pass, hplaces]
  exact foldl_combine_block [] [] rfl (ha.trans hb.symm) (by rw [List.length_nil, Nat.zero_add, ha])

theorem passesFrom_append {half : Nat} (hpos : 0 < half) (m : Nat) {a b : List α}
    (ha : a.length = half * 2 ^ m) (hb : b.length = half * 2 ^ m) :
    passesFrom half (a ++ b) = pass (half * 2 ^ m) (passesFrom half a ++ passesFrom half b) := by
  induction m generalizing half a b with
  | zero =>
    rw [Nat.pow_zero, Nat.mul_one] at ha hb ⊢
    have hlen : (a ++ b).length = 2 * half := by rw [List.length_append, ha, hb, Nat.two_mul]
    rw [passesFrom_of_le ha.le, passesFrom_of_le hb.le, passesFrom_of_lt hpos (by omega),
      passesFrom_of_le (by rw [length_pass, hlen])]
  | succ m ih =>
    have hhalf : half * 2 ^ (m + 1) = 2 * half * 2 ^ m := by rw [Nat.pow_succ]; ring
    have hlt : half < half * 2 ^ (m + 1) :=
      lt_mul_of_one_lt_right hpos (Nat.one_lt_two_pow (Nat.succ_ne_zero m))
    rw [passesFrom_of_lt hpos (by rw [List.length_append]; omega), pass_append hpos (ha.trans hhalf),
      passesFrom_of_lt (v := a) hpos (ha ▸ hlt), passesFrom_of_lt (v := b) hpos (hb ▸ hlt), hhalf]
    exact ih (Nat.mul_pos Nat.two_pos hpos) ((length_pass half a).trans (ha.trans hhalf))
      ((length_pass half b).trans (hb.trans hhalf))

end Butterfly

namespace Cube

open Finset

theorem transform_toList {α : Type} [Add α] [Sub α] {n : Nat} (c : Cube α n) :
    Butterfly.transform c.toList = c.walsh.toList := by
  induction c with
  | point a => exact Butterfly.passesFrom_of_le (Nat.le_refl 1)
  | @join n lo hi ihlo ihhi =>
    have hsplit := Butterfly.passesFrom_append Nat.one_pos n
      (lo.length_toList.trans (Nat.one_mul _).symm) (hi.length_toList.trans (Nat.one_mul _).symm)
    rw [toList_join, Butterfly.transform, hsplit, ← Butterfly.transform, ← Butterfly.transform, ihlo,
      ihhi, Nat.one_mul, Butterfly.pass_single (Nat.two_pow_pos n) lo.walsh.length_toList
      hi.walsh.length_toList, ← toList_zipWith, ← toList_zipWith, ← toList_join]
    rfl

variable {R : Type} [CommRing R]

def ofList (n : Nat) (v : List R) : Cube R n := tabulate n fun x => v.getD x 0

theorem get_ofList {n x : Nat} (v : List R) (hx : x < 2 ^ n) : (ofList n v).get x = v.getD x 0 :=
  get_tabulate _ hx

theorem toList_ofList {n : Nat} {v : List R} (hv : v.length = 2 ^ n) : (ofList n v).toList = v := by
  rw [toList_eq, ← hv]
  apply List.ext_getElem
  · rw [List.length_map, List.length_range]
  · intro x _ hx
    rw [List.getElem_map, List.getElem_range, get_ofList v (hv ▸ hx), List.getD_eq_getElem _ _ hx]

theorem get_walsh {n : Nat} (c : Cube R n) (s : Nat) :
    c.walsh.get s = ∑ x ∈ range (2 ^ n), c.get x * (-1) ^ weight n (s &&& x) := by
  rw [get_eq_valueAt, valueAt_walsh]
  refine Finset.sum_congr rfl fun x _ => ?_
  rw [Nat.and_comm, neg_one_pow_weight, mul_comm]

theorem toList_walsh_walsh {n : Nat} (c : Cube R n) :
    c.walsh.walsh.toList = c.toList.map (2 ^ n * ·) := by
  rw [toList_eq, toList_eq, List.map_map]
  refine List.map_congr_left fun x _ => ?_
  rw [get_eq_valueAt, valueAt_walsh_walsh, ← get_eq_valueAt]
  rfl

theorem walsh_adds_up_in_place (k : Nat) (v : List R) (hv : v.length = 2 ^ k) :
    (ofList k v).toList = v ∧
    (ofList k v).walsh.toList = (List.range (2 ^ k)).map (fun s =>
      ∑ x ∈ range (2 ^ k), v.getD x 0 * (-1) ^ weight k (s &&& x)) ∧
    (ofList k v).walsh.walsh.toList = v.map (2 ^ k * ·) ∧
    Butterfly.transform v = (ofList k v).walsh.toList ∧
    Butterfly.transform (Butterfly.transform v) = (ofList k v).walsh.walsh.toList := by
  have hrow := toList_ofList hv
  have hpasses : Butterfly.transform v = (ofList k v).walsh.toList := by
    rw [← transform_toList, hrow]
  refine ⟨hrow, ?_, ?_, hpasses, ?_⟩
  · rw [toList_eq]
    refine List.map_congr_left fun s _ => ?_
    rw [get_walsh]
    refine Finset.sum_congr rfl fun x hx => ?_
    rw [get_ofList v (mem_range.mp hx)]
  · rw [toList_walsh_walsh, hrow]
  · rw [hpasses, transform_toList]

theorem walsh_adds_up_in_place_eight :
    [(2 : Int), -4, 8, 0, 12, 6, -1, 16].length = 2 ^ 3 ∧
    Butterfly.transform [(2 : Int), -4, 8, 0, 12, 6, -1, 16] =
      [39, 3, -7, 21, -27, 25, -13, -25] ∧
    Butterfly.transform (Butterfly.transform [(2 : Int), -4, 8, 0, 12, 6, -1, 16]) =
      [16, -32, 64, 0, 96, 48, -8, 128] := by
  obtain ⟨-, hsums, htwice, hpass, hpasses⟩ :=
    walsh_adds_up_in_place 3 [(2 : Int), -4, 8, 0, 12, 6, -1, 16] rfl
  exact ⟨rfl, hpass.trans (hsums.trans (by decide +kernel)),
    hpasses.trans (htwice.trans (by decide +kernel))⟩

end Cube

end ReversibleSynthesis
