import ReversibleSynthesis.Proofs.Cube
import ReversibleSynthesis.Proofs.Permutation
import ReversibleSynthesis.TruthTable.ReedMuller

namespace ReversibleSynthesis

namespace ReedMuller

def passed (var : Nat) (g : Nat → Bool) (x : Nat) : Bool := g x ^^ (x.testBit var && g (x ^^^ 2 ^ var))

def passes (g : Nat → Bool) : Nat → Nat → Bool
  | 0 => g
  | var + 1 => passed var (passes g var)

theorem and_two_pow_ne_zero_iff (x var : Nat) : x &&& 2 ^ var ≠ 0 ↔ x.testBit var = true := by
  rw [Nat.and_two_pow]
  cases x.testBit var with
  | false => simp
  | true => simp

theorem size_addLower (bit x : Nat) (a : Array Bool) : (addLower bit x a).size = a.size := by
  rw [addLower]
  split
  · exact Array.size_setIfInBounds
  · rfl

theorem size_fold_addLower (bit j : Nat) (a : Array Bool) :
    (Nat.fold j (fun x _ => addLower bit x) a).size = a.size := by
  induction j with
  | zero => rfl
  | succ j ih => rw [Nat.fold_succ, size_addLower, ih]

theorem size_pass (a : Array Bool) (var : Nat) : (pass a var).size = a.size :=
  size_fold_addLower ..

theorem xor_two_pow_lt_self {x var : Nat} (h : x.testBit var = true) : x ^^^ 2 ^ var < x := by
  rw [← sub_two_pow_eq_xor h]
  exact Nat.sub_lt (Nat.pos_of_ne_zero fun hx => by simp [hx] at h) (Nat.two_pow_pos var)

-- The entry that is added at `j` lies below `j` and has no bit `var`, so this pass has kept it.
theorem getD_fold_addLower (var : Nat) (a : Array Bool) {j : Nat} (hj : j ≤ a.size) (x : Nat) :
    (Nat.fold j (fun x _ => addLower (2 ^ var) x) a).getD x false =
      if x < j then passed var (a.getD · false) x else a.getD x false := by
  induction j generalizing x with
  | zero => rfl
  | succ j ih =>
    have ih := ih (Nat.le_of_succ_le hj)
    have hsize := size_fold_addLower (2 ^ var) j a
    rw [Nat.fold_succ, addLower]
    by_cases hbit : j.testBit var = true
    · have hlower := xor_two_pow_lt_self hbit
      have hkept : passed var (a.getD · false) (j ^^^ 2 ^ var) = a.getD (j ^^^ 2 ^ var) false := by
        rw [passed, testBit_xor_two_pow, hbit]
        simp
      rw [if_pos ((and_two_pow_ne_zero_iff j var).mpr hbit),
        getD_setIfInBounds _ _ _ _ _ (hsize ▸ hj), ih, ih, ih, if_neg (Nat.lt_irrefl j),
        if_pos hlower, hkept]
      rcases Nat.lt_trichotomy x j with hlt | rfl | hgt
      · rw [if_neg (Nat.ne_of_lt hlt), if_pos hlt, if_pos (Nat.lt_succ_of_lt hlt)]
      · rw [if_pos rfl, if_pos (Nat.lt_succ_self x), passed, hbit, Bool.true_and]
      · rw [if_neg (Nat.ne_of_gt hgt), if_neg (Nat.lt_asymm hgt), if_neg (by omega)]
    · rw [if_neg (mt (and_two_pow_ne_zero_iff j var).mp hbit), ih]
      rcases Nat.lt_trichotomy x j with hlt | rfl | hgt
      · rw [if_pos hlt, if_pos (Nat.lt_succ_of_lt hlt)]
      · rw [if_neg (Nat.lt_irrefl x), if_pos (Nat.lt_succ_self x), passed,
          Bool.eq_false_of_not_eq_true hbit, Bool.false_and, Bool.xor_false]
      · rw [if_neg (Nat.lt_asymm hgt), if_neg (by omega)]

theorem getD_pass (a : Array Bool) (var : Nat) {x : Nat} (hx : x < a.size) :
    (pass a var).getD x false = passed var (a.getD · false) x :=
  (getD_fold_addLower var a (Nat.le_refl _) x).trans (if_pos hx)

theorem size_foldl_pass (vars : List Nat) (a : Array Bool) : (vars.foldl pass a).size = a.size := by
  induction vars generalizing a with
  | nil => rfl
  | cons var vars ih => rw [List.foldl_cons, ih, size_pass]

theorem getD_foldl_pass {n k : Nat} (hk : k ≤ n) {a : Array Bool} (ha : a.size = 2 ^ n) {x : Nat}
    (hx : x < 2 ^ n) :
    ((List.range k).foldl pass a).getD x false = passes (a.getD · false) k x := by
  induction k generalizing x with
  | zero => rfl
  | succ k ih =>
    have hsize : ((List.range k).foldl pass a).size = 2 ^ n := (size_foldl_pass _ a).trans ha
    rw [List.range_succ, List.foldl_concat, getD_pass _ _ (hsize ▸ hx), passes, passed, passed,
      ih (by omega) hx, ih (by omega) (xor_two_pow_lt hx hk)]

theorem passes_add (g : Nat → Bool) {n k : Nat} (hk : k ≤ n) {y : Nat} (hy : y < 2 ^ n) :
    passes g k (2 ^ n + y) = passes (fun z => g (2 ^ n + z)) k y := by
  induction k generalizing y with
  | zero => rfl
  | succ k ih =>
    have hxor : (2 ^ n + y) ^^^ 2 ^ k = 2 ^ n + (y ^^^ 2 ^ k) := by
      have hbit : ∀ z < 2 ^ n, 2 ^ n + z = z ^^^ 2 ^ n := fun z hz => by
        rw [Nat.add_comm, add_two_pow_eq_xor (Nat.testBit_lt_two_pow hz)]
      rw [hbit y hy, hbit _ (xor_two_pow_lt hy hk), Nat.xor_assoc, Nat.xor_comm (2 ^ n),
        ← Nat.xor_assoc]
    rw [passes, passed, passes, passed, hxor, Nat.testBit_two_pow_add_gt hk, ih (by omega) hy,
      ih (by omega) (xor_two_pow_lt hy hk)]

theorem count_eq_length (a : Array Bool) : count a = (monomials a).length := by
  have hlist : a.toList = (List.range a.size).map fun m => a.getD m false := by
    refine List.ext_getElem (by simp) fun i hi hi' => ?_
    simp [Array.getD_eq_getD_getElem?, show i < a.size from hi]
  rw [count, ← Array.countP_toList, hlist, List.countP_map, monomials, List.countP_eq_length_filter]
  rfl

end ReedMuller

namespace Cube

def add {n : Nat} (f g : Cube Bool n) : Cube Bool n := f.zipWith (· ^^ ·) g

def expansion (p : Nat) : {n : Nat} → Cube Bool n → Cube Bool n
  | 0, .point b => .point b
  | n + 1, .join lo hi =>
      .join ((if p.testBit n then hi else lo).expansion p) ((lo.add hi).expansion p)

def supportFrom : {n : Nat} → Cube Bool n → Nat → List Nat
  | _, .point b, base => if b then [base] else []
  | _, .join (n := n) lo hi, base => lo.supportFrom base ++ hi.supportFrom (base + 2 ^ n)

def support {n : Nat} (f : Cube Bool n) : List Nat := f.supportFrom 0

theorem add_join {n : Nat} (a b c d : Cube Bool n) :
    (join a b).add (join c d) = join (a.add c) (b.add d) := rfl

theorem add_add_add_comm {n : Nat} (a b c d : Cube Bool n) :
    (a.add b).add (c.add d) = (a.add c).add (b.add d) := by
  induction a with
  | point x =>
    cases b; cases c; cases d
    simp only [add, zipWith, Bool.xor_assoc, Bool.xor_left_comm]
  | join lo hi ihlo ihhi =>
    cases b; cases c; cases d
    simp only [add_join, ihlo, ihhi]

theorem expansion_add {n : Nat} (p : Nat) (f g : Cube Bool n) :
    (f.add g).expansion p = (f.expansion p).add (g.expansion p) := by
  induction n with
  | zero =>
    cases f; cases g
    rfl
  | succ n ih =>
    cases f with
    | join a b =>
      cases g with
      | join c d =>
        rw [add_join, expansion, expansion, expansion, add_join, ← ih, ← ih, add_add_add_comm]
        split <;> rfl

theorem get_add {n : Nat} (f g : Cube Bool n) (x : Nat) : (f.add g).get x = (f.get x ^^ g.get x) :=
  get_zipWith _ f g x

theorem get_join_xor_of_lt {n : Nat} (lo hi : Cube Bool n) (p : Nat) {y : Nat} (hy : y < 2 ^ n) :
    (join lo hi).get (y ^^^ p) = (if p.testBit n then hi else lo).get (y ^^^ p) := by
  rw [get, Nat.testBit_xor, Nat.testBit_lt_two_pow hy, Bool.false_xor]
  split <;> rfl

theorem get_join_xor_add {n : Nat} (lo hi : Cube Bool n) (p : Nat) {y : Nat} (hy : y < 2 ^ n) :
    (join lo hi).get ((2 ^ n + y) ^^^ p) = (if p.testBit n then lo else hi).get (y ^^^ p) := by
  have hsame (c : Cube Bool n) : c.get ((2 ^ n + y) ^^^ p) = c.get (y ^^^ p) := by
    rw [get_eq_valueAt, get_eq_valueAt]
    refine c.valueAt_congr fun i hi => ?_
    rw [Nat.testBit_xor, Nat.testBit_xor, Nat.testBit_two_pow_add_gt hi]
  rw [get, Nat.testBit_xor, Nat.testBit_two_pow_add_eq, Nat.testBit_lt_two_pow hy, hsame, hsame]
  cases p.testBit n <;> rfl

theorem passes_eq {n : Nat} (p : Nat) (c : Cube Bool n) {g : Nat → Bool}
    (hg : ∀ x < 2 ^ n, g x = c.get (x ^^^ p)) {x : Nat} (hx : x < 2 ^ n) :
    ReedMuller.passes g n x = (c.expansion p).get x := by
  induction n generalizing g x with
  | zero =>
    cases c with
    | point b =>
      obtain rfl : x = 0 := by simpa using hx
      exact hg 0 hx
  | succ n ih =>
    cases c with
    | join lo hi =>
      have hlower : ∀ y < 2 ^ n, g y = (if p.testBit n then hi else lo).get (y ^^^ p) :=
        fun y hy => (hg y (by rw [Nat.pow_succ]; omega)).trans (get_join_xor_of_lt lo hi p hy)
      have hupper : ∀ y < 2 ^ n, g (2 ^ n + y) = (if p.testBit n then lo else hi).get (y ^^^ p) :=
        fun y hy => (hg _ (by rw [Nat.pow_succ]; omega)).trans (get_join_xor_add lo hi p hy)
      rw [ReedMuller.passes, ReedMuller.passed, expansion]
      rcases Nat.lt_or_ge x (2 ^ n) with hlt | hge
      · rw [Nat.testBit_lt_two_pow hlt, Bool.false_and, Bool.xor_false, get_join_of_lt _ _ hlt,
          ih _ hlower hlt]
      · obtain ⟨y, rfl⟩ := Nat.exists_eq_add_of_le hge
        have hy : y < 2 ^ n := by rw [Nat.pow_succ] at hx; omega
        have hbit : (2 ^ n + y).testBit n = true := by
          rw [Nat.testBit_two_pow_add_eq, Nat.testBit_lt_two_pow hy]
          rfl
        have hdrop : (2 ^ n + y) ^^^ 2 ^ n = y := by
          rw [← sub_two_pow_eq_xor hbit, Nat.add_sub_cancel_left]
        rw [hbit, Bool.true_and, hdrop, ReedMuller.passes_add g (Nat.le_refl n) hy, ih _ hupper hy,
          ih _ hlower hy, get_join_add _ _ hy, expansion_add, get_add]
        cases p.testBit n with
        | false => exact Bool.xor_comm _ _
        | true => rfl

def sum : {n : Nat} → Cube Bool n → State → Bool
  | _, .point b, _ => b
  | _, .join (n := n) lo hi, s => lo.sum s ^^ (s n && hi.sum s)

theorem valueAt_add {n : Nat} (f g : Cube Bool n) (s : State) :
    (f.add g).valueAt s = (f.valueAt s ^^ g.valueAt s) :=
  valueAt_zipWith _ f g s

theorem sum_congr {n : Nat} (f : Cube Bool n) {s t : State} (h : ∀ i < n, s i = t i) :
    f.sum s = f.sum t := by
  induction f with
  | point b => rfl
  | @join n lo hi ihlo ihhi =>
    rw [sum, sum, h n (Nat.lt_succ_self n), ihlo fun i hi => h i (Nat.lt_succ_of_lt hi),
      ihhi fun i hi => h i (Nat.lt_succ_of_lt hi)]

theorem sum_expansion {n : Nat} (p : Nat) (f : Cube Bool n) (s : State) :
    (f.expansion p).sum (fun i => s i ^^ p.testBit i) = f.valueAt s := by
  induction n with
  | zero =>
    cases f with
    | point b => rfl
  | succ n ih =>
    cases f with
    | join lo hi =>
      rw [expansion, sum, ih, ih, valueAt_add, valueAt]
      cases hp : p.testBit n <;> cases hs : s n <;>
        cases hlo : lo.valueAt s <;> cases hhi : hi.valueAt s <;> simp [hlo, hhi]

def parityOf (p : Nat → Bool) : List Nat → Bool
  | [] => false
  | m :: ms => p m ^^ parityOf p ms

theorem parityOf_append (p : Nat → Bool) (ms ms' : List Nat) :
    parityOf p (ms ++ ms') = (parityOf p ms ^^ parityOf p ms') := by
  induction ms with
  | nil => simp [parityOf]
  | cons m ms ih => rw [List.cons_append, parityOf, parityOf, ih, Bool.xor_assoc]

theorem all_setBits_add {w k base : Nat} (hk : k < w) (hbase : base.testBit k = false) (s : State) :
    (setBits w (base + 2 ^ k)).all s = ((setBits w base).all s && s k) := by
  rw [add_two_pow_eq_xor hbase, Bool.eq_iff_iff, Bool.and_eq_true, List.all_eq_true,
    List.all_eq_true]
  constructor
  · intro h
    refine ⟨fun i hi => h i ?_, h k ?_⟩
    · obtain ⟨hi, hbit⟩ := mem_setBits.mp hi
      have hne : k ≠ i := by
        rintro rfl
        rw [hbase] at hbit
        cases hbit
      exact mem_setBits.mpr ⟨hi, by simp [hbit, Nat.testBit_two_pow_of_ne hne]⟩
    · exact mem_setBits.mpr ⟨hk, by simp [hbase]⟩
  · rintro ⟨h, hsk⟩ i hi
    obtain ⟨hi, hbit⟩ := mem_setBits.mp hi
    by_cases hik : k = i
    · exact hik ▸ hsk
    · refine h i (mem_setBits.mpr ⟨hi, ?_⟩)
      simpa [Nat.testBit_two_pow_of_ne hik] using hbit

theorem parityOf_supportFrom {w k : Nat} (f : Cube Bool k) (hk : k ≤ w) {base : Nat}
    (hbase : ∀ i < k, base.testBit i = false) (s : State) :
    parityOf (fun m => (setBits w m).all s) (f.supportFrom base) =
      ((setBits w base).all s && f.sum s) := by
  induction f generalizing base with
  | point b => cases b <;> simp [supportFrom, parityOf, sum]
  | @join k lo hi ihlo ihhi =>
    have hlow : ∀ i < k, base.testBit i = false := fun i hi => hbase i (by omega)
    have hhigh : ∀ i < k, (base + 2 ^ k).testBit i = false := by
      intro i hi
      rw [add_two_pow_eq_xor (hbase k (by omega)), Nat.testBit_xor, hlow i hi,
        Nat.testBit_two_pow_of_ne (by omega)]
      rfl
    rw [supportFrom, parityOf_append, ihlo (by omega) hlow, ihhi (by omega) hhigh,
      all_setBits_add (by omega) (hbase k (by omega)), sum, Bool.and_assoc, Bool.and_xor_distrib_left]

theorem parityOf_support {n : Nat} (f : Cube Bool n) (s : State) :
    parityOf (fun m => (setBits n m).all s) f.support = f.sum s := by
  have hzero : (setBits n 0).all s = true := by simp [setBits]
  rw [support, parityOf_supportFrom f (Nat.le_refl n) (by simp), hzero, Bool.true_and]

theorem supportFrom_eq {n : Nat} (c : Cube Bool n) (base : Nat) :
    c.supportFrom base = ((List.range (2 ^ n)).filter c.get).map (base + ·) := by
  induction c generalizing base with
  | point b => cases b <;> simp [supportFrom, get]
  | @join n lo hi ihlo ihhi =>
    have hlow : (List.range (2 ^ n)).filter (join lo hi).get = (List.range (2 ^ n)).filter lo.get :=
      List.filter_congr fun x hx => get_join_of_lt lo hi (List.mem_range.mp hx)
    have hhigh : (List.range (2 ^ n)).filter ((join lo hi).get ∘ (2 ^ n + ·)) =
        (List.range (2 ^ n)).filter hi.get :=
      List.filter_congr fun x hx => get_join_add lo hi (List.mem_range.mp hx)
    rw [supportFrom, ihlo, ihhi, Nat.pow_succ, Nat.mul_two, List.range_add, List.filter_append,
      List.filter_map, hlow, hhigh, List.map_append, List.map_map]
    simp only [Function.comp_def, Nat.add_assoc]

theorem support_eq {n : Nat} (c : Cube Bool n) :
    c.support = (List.range (2 ^ n)).filter c.get := by
  rw [support, supportFrom_eq]
  simp

end Cube

namespace TruthTable

open ReedMuller

theorem size_expansion (f : TruthTable) (p : Nat) : (f.expansion p).size = 2 ^ f.numVars := by
  rw [expansion, size_foldl_pass, Array.size_map, Array.size_range]
  rfl

theorem getD_expansion (f : TruthTable) {p x : Nat} (hp : p < 2 ^ f.numVars)
    (hx : x < 2 ^ f.numVars) :
    (f.expansion p).getD x false = ((Cube.tabulate f.numVars f.bit).expansion p).get x := by
  have hsize : ((Array.range f.numBits).map fun x => f.bit (x ^^^ p)).size = 2 ^ f.numVars := by
    rw [Array.size_map, Array.size_range]
    rfl
  rw [expansion, getD_foldl_pass (Nat.le_refl _) hsize hx]
  refine Cube.passes_eq p _ (fun y hy => ?_) hx
  rw [Cube.get_tabulate _ (Nat.xor_lt_two_pow hy hp), Array.getD_eq_getD_getElem?,
    Array.getElem?_eq_getElem (hsize ▸ hy), Array.getElem_map, Array.getElem_range]
  rfl

theorem monomials_expansion (f : TruthTable) {p : Nat} (hp : p < 2 ^ f.numVars) :
    monomials (f.expansion p) = ((Cube.tabulate f.numVars f.bit).expansion p).support := by
  rw [monomials, Cube.support_eq, size_expansion]
  exact List.filter_congr fun x hx => f.getD_expansion hp (List.mem_range.mp hx)

structure FirstLeast (f : TruthTable) (bound : Nat) (best : Best) : Prop where
  polarity_lt : best.polarity < bound
  coefficients_eq : best.coefficients = f.expansion best.polarity
  count_eq : best.count = count (f.expansion best.polarity)
  count_le : ∀ p < bound, best.count ≤ count (f.expansion p)
  count_lt : ∀ p < best.polarity, best.count < count (f.expansion p)

theorem FirstLeast.tryPolarity {f : TruthTable} {bound : Nat} {best : Best}
    (h : f.FirstLeast bound best) : f.FirstLeast (bound + 1) (f.tryPolarity best bound) := by
  by_cases hless : count (f.expansion bound) < best.count
  · rw [show f.tryPolarity best bound = ⟨bound, f.expansion bound, count (f.expansion bound)⟩ from
      if_pos hless]
    exact {
      polarity_lt := Nat.lt_succ_self bound
      coefficients_eq := rfl
      count_eq := rfl
      count_le := fun p hp => by
        rcases Nat.lt_succ_iff_lt_or_eq.mp hp with hlt | rfl
        · exact Nat.le_of_lt (Nat.lt_of_lt_of_le hless (h.count_le p hlt))
        · exact Nat.le_refl _
      count_lt := fun p hp => Nat.lt_of_lt_of_le hless (h.count_le p hp) }
  · rw [show f.tryPolarity best bound = best from if_neg hless]
    exact {
      polarity_lt := Nat.lt_succ_of_lt h.polarity_lt
      coefficients_eq := h.coefficients_eq
      count_eq := h.count_eq
      count_le := fun p hp => by
        rcases Nat.lt_succ_iff_lt_or_eq.mp hp with hlt | rfl
        · exact h.count_le p hlt
        · exact Nat.not_lt.mp hless
      count_lt := h.count_lt }

theorem firstLeast_foldl (f : TruthTable) {first : Best} (h : f.FirstLeast 1 first) (k : Nat) :
    f.FirstLeast (1 + k) ((List.range' 1 k).foldl f.tryPolarity first) := by
  induction k with
  | zero => exact h
  | succ k ih =>
    rw [List.range'_concat, Nat.one_mul, List.foldl_concat]
    exact ih.tryPolarity

theorem firstLeast_bestExpansion (f : TruthTable) :
    f.FirstLeast (2 ^ f.numVars) f.bestExpansion := by
  have hfirst : f.FirstLeast 1 ⟨0, f.expansion 0, count (f.expansion 0)⟩ := {
    polarity_lt := Nat.zero_lt_one
    coefficients_eq := rfl
    count_eq := rfl
    count_le := fun p hp => Nat.lt_one_iff.mp hp ▸ Nat.le_refl _
    count_lt := fun p hp => absurd hp (Nat.not_lt_zero p) }
  have hall := f.firstLeast_foldl hfirst (2 ^ f.numVars - 1)
  rwa [Nat.add_sub_cancel' (Nat.one_le_two_pow)] at hall

end TruthTable

end ReversibleSynthesis
