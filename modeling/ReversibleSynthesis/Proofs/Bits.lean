import Mathlib.Data.Nat.Bitwise
import ReversibleSynthesis.Bits

namespace ReversibleSynthesis

theorem packBits_lt (f : Nat → Bool) (w : Nat) : packBits f w < 2 ^ w := by
  induction w with
  | zero => simp [packBits]
  | succ w ih =>
    rw [packBits, Nat.one_shiftLeft, Nat.pow_succ]
    split <;> omega

theorem testBit_packBits (f : Nat → Bool) (w i : Nat) :
    (packBits f w).testBit i = (decide (i < w) && f i) := by
  induction w with
  | zero => simp [packBits]
  | succ w ih =>
    have hlt := packBits_lt f w
    have hsum : packBits f (w + 1) = 2 ^ w * (f w).toNat + packBits f w := by
      rw [packBits, Nat.one_shiftLeft, Nat.add_comm]
      cases f w <;> simp
    rw [hsum, Nat.testBit_two_pow_mul_add _ hlt, ih]
    rcases Nat.lt_trichotomy i w with h | rfl | h
    · simp [h, Nat.lt_succ_of_lt h]
    · cases f i <;> simp
    · have hone : (f w).toNat.testBit (i - w) = false :=
        Nat.testBit_lt_two_pow (Nat.lt_of_lt_of_le (Bool.toNat_lt (f w))
          (Nat.le_self_pow (by omega) 2))
      rw [if_neg (by omega), hone]
      simp [show ¬ i < w + 1 by omega]

theorem eq_of_testBit_below {w x y : Nat} (hx : x < 2 ^ w) (hy : y < 2 ^ w)
    (h : ∀ i < w, x.testBit i = y.testBit i) : x = y := by
  apply Nat.eq_of_testBit_eq
  intro i
  by_cases hi : i < w
  · exact h i hi
  · have hle : 2 ^ w ≤ 2 ^ i := Nat.pow_le_pow_right (by omega) (by omega)
    rw [Nat.testBit_lt_two_pow (Nat.lt_of_lt_of_le hx hle),
      Nat.testBit_lt_two_pow (Nat.lt_of_lt_of_le hy hle)]

theorem packBits_eq {f : Nat → Bool} {w x : Nat} (hx : x < 2 ^ w)
    (h : ∀ i < w, f i = x.testBit i) : packBits f w = x := by
  apply eq_of_testBit_below (packBits_lt f w) hx
  intro i hi
  simp [testBit_packBits, hi, h i hi]

theorem packBits_congr {f g : Nat → Bool} {w : Nat} (h : ∀ i < w, f i = g i) :
    packBits f w = packBits g w := by
  refine packBits_eq (packBits_lt g w) fun i hi => ?_
  rw [testBit_packBits, h i hi, decide_eq_true hi, Bool.true_and]

theorem lt_of_testBit_eq_true {w m i : Nat} (hm : m < 2 ^ w) (h : m.testBit i = true) : i < w := by
  by_contra hi
  have hle : 2 ^ w ≤ 2 ^ i := Nat.pow_le_pow_right (by omega) (by omega)
  rw [Nat.testBit_lt_two_pow (Nat.lt_of_lt_of_le hm hle)] at h
  exact Bool.false_ne_true h

theorem mem_setBits {w m i : Nat} : i ∈ setBits w m ↔ i < w ∧ m.testBit i = true := by
  simp [setBits]

theorem notMem_setBits {w m i : Nat} (h : m.testBit i = false) : i ∉ setBits w m := by
  simp [mem_setBits, h]

theorem nodup_setBits (w m : Nat) : (setBits w m).Nodup := List.nodup_range.filter _

theorem all_setBits_iff {w m : Nat} (hm : m < 2 ^ w) (x : Nat) :
    (setBits w m).all x.testBit = true ↔ x &&& m = m := by
  rw [List.all_eq_true]
  constructor
  · intro h
    apply Nat.eq_of_testBit_eq
    intro i
    rw [Nat.testBit_and]
    cases hbit : m.testBit i with
    | false => rw [Bool.and_false]
    | true => rw [h i (mem_setBits.mpr ⟨lt_of_testBit_eq_true hm hbit, hbit⟩), Bool.and_true]
  · intro h i hi
    have hbit := (mem_setBits.mp hi).2
    rw [← h, Nat.testBit_and, Bool.and_eq_true] at hbit
    exact hbit.1

theorem eq_zero_of_setBits {w m : Nat} (hm : m < 2 ^ w) (h : setBits w m = []) : m = 0 := by
  apply eq_of_testBit_below hm (Nat.two_pow_pos w)
  intro i hi
  have hmem : i ∉ setBits w m := by rw [h]; exact List.not_mem_nil
  rw [mem_setBits] at hmem
  simpa [hi] using hmem

theorem eq_two_pow_of_setBits {w m q : Nat} (hm : m < 2 ^ w) (h : setBits w m = [q]) :
    m = 2 ^ q := by
  have hq : q < w := (mem_setBits.mp (h ▸ List.mem_singleton_self q)).1
  apply eq_of_testBit_below hm (Nat.pow_lt_pow_right (by omega) hq)
  intro i hi
  have hmem : i ∈ setBits w m ↔ i = q := by rw [h, List.mem_singleton]
  rw [mem_setBits] at hmem
  rw [Nat.testBit_two_pow]
  by_cases hiq : i = q
  · simpa [hiq] using (hmem.mpr hiq).2
  · simpa [hiq, Ne.symm hiq, hi] using hmem

theorem length_setBits_xor {w m c : Nat} (hc : c < w) (h : m.testBit c = true) :
    (setBits w m).length = (setBits w (m ^^^ 2 ^ c)).length + 1 := by
  have hnot : c ∉ setBits w (m ^^^ 2 ^ c) := by
    simp [mem_setBits, h]
  have hperm : (setBits w m).Perm (c :: setBits w (m ^^^ 2 ^ c)) := by
    rw [List.perm_ext_iff_of_nodup (nodup_setBits w m)
      (List.nodup_cons.mpr ⟨hnot, nodup_setBits _ _⟩)]
    intro i
    rw [List.mem_cons, mem_setBits, mem_setBits, Nat.testBit_xor, Nat.testBit_two_pow]
    by_cases hi : i = c
    · simp [hi, hc, h]
    · simp [hi, Ne.symm hi]
  exact hperm.length_eq

theorem powerOfTwoLog?_eq_some_iff {n k : Nat} : powerOfTwoLog? n = some k ↔ n = 2 ^ k := by
  unfold powerOfTwoLog?
  rw [Nat.one_shiftLeft]
  constructor
  · intro h
    split at h
    · next heq =>
      obtain rfl := Option.some.inj h
      exact heq.symm
    · cases h
  · rintro rfl
    simp [Nat.log2_two_pow]

theorem sub_two_pow_eq_xor {m i : Nat} (h : m.testBit i = true) : m - 2 ^ i = m ^^^ 2 ^ i := by
  have hr : m % 2 ^ i < 2 ^ i := Nat.mod_lt _ (Nat.two_pow_pos i)
  obtain ⟨k, hk⟩ : ∃ k, m / 2 ^ i = 2 * k + 1 := by
    rw [Nat.testBit_eq_decide_div_mod_eq, decide_eq_true_eq] at h
    exact ⟨m / 2 ^ i / 2, by omega⟩
  have hm : m = 2 ^ i * (2 * k + 1) + m % 2 ^ i := by
    rw [← hk]; exact (Nat.div_add_mod m (2 ^ i)).symm
  have hsub : m - 2 ^ i = 2 ^ i * (2 * k) + m % 2 ^ i := by
    have hsucc : 2 ^ i * (2 * k + 1) = 2 ^ i * (2 * k) + 2 ^ i := Nat.mul_succ _ _
    omega
  apply Nat.eq_of_testBit_eq
  intro j
  rw [hsub, Nat.testBit_xor, Nat.testBit_two_pow, Nat.testBit_two_pow_mul_add _ hr]
  conv_rhs => rw [hm, Nat.testBit_two_pow_mul_add _ hr]
  rcases Nat.lt_trichotomy j i with hj | rfl | hj
  · simp [hj, Nat.ne_of_gt hj]
  · simp
  · obtain ⟨d, rfl⟩ : ∃ d, j = i + (d + 1) := ⟨j - i - 1, by omega⟩
    have hodd : (2 * k + 1) / 2 = k := by omega
    simp [Nat.testBit_succ, hodd]

theorem add_two_pow_eq_xor {m i : Nat} (h : m.testBit i = false) : m + 2 ^ i = m ^^^ 2 ^ i := by
  have hset : (m ^^^ 2 ^ i).testBit i = true := by simp [h]
  have hsub := sub_two_pow_eq_xor hset
  rw [Nat.xor_assoc, Nat.xor_self, Nat.xor_zero] at hsub
  have hle := Nat.ge_two_pow_of_testBit hset
  omega

theorem clearBit_eq (m i : Nat) : clearBit m i = if m.testBit i then m - 2 ^ i else m := rfl

theorem testBit_clearBit (m i j : Nat) :
    (clearBit m i).testBit j = (decide (j ≠ i) && m.testBit j) := by
  rw [clearBit_eq]
  split
  · next h =>
    rw [sub_two_pow_eq_xor h, Nat.testBit_xor, Nat.testBit_two_pow]
    by_cases hj : j = i
    · subst hj; simp [h]
    · simp [hj, Ne.symm hj]
  · next h =>
    by_cases hj : j = i
    · subst hj; simpa using h
    · simp [hj]

theorem testBit_xor_two_pow (m i j : Nat) :
    (m ^^^ 2 ^ i).testBit j = (m.testBit j ^^ decide (j = i)) := by
  rw [Nat.testBit_xor, Nat.testBit_two_pow]
  simp [eq_comm]

theorem xor_two_pow_twice (m i : Nat) : m ^^^ 2 ^ i ^^^ 2 ^ i = m := by
  rw [Nat.xor_assoc, Nat.xor_self, Nat.xor_zero]

theorem xor_two_pow_ne (m i : Nat) : m ^^^ 2 ^ i ≠ m := by
  intro h
  have hbit := testBit_xor_two_pow m i i
  rw [h] at hbit
  cases hm : m.testBit i <;> simp [hm] at hbit

theorem xor_two_pow_lt {m i w : Nat} (hm : m < 2 ^ w) (hi : i < w) : m ^^^ 2 ^ i < 2 ^ w :=
  Nat.xor_lt_two_pow hm (Nat.pow_lt_pow_right (by decide) hi)

theorem clearBit_lt {m i w : Nat} (hm : m < 2 ^ w) : clearBit m i < 2 ^ w := by
  rw [clearBit_eq]
  split
  · exact Nat.lt_of_le_of_lt (Nat.sub_le _ _) hm
  · exact hm

theorem clearBit_xor_two_pow (m i : Nat) : clearBit (m ^^^ 2 ^ i) i = clearBit m i := by
  apply Nat.eq_of_testBit_eq
  intro j
  rw [testBit_clearBit, testBit_clearBit, testBit_xor_two_pow]
  by_cases hj : j = i <;> simp [hj]

theorem clearBit_of_testBit_eq_false {m i : Nat} (h : m.testBit i = false) : clearBit m i = m := by
  rw [clearBit_eq, h]
  rfl

theorem eq_of_clearBit_eq {m m' i : Nat} (h : clearBit m i = clearBit m' i)
    (hbit : m.testBit i = m'.testBit i) : m = m' := by
  apply Nat.eq_of_testBit_eq
  intro j
  by_cases hj : j = i
  · exact hj ▸ hbit
  · have hclear := congrArg (fun k => k.testBit j) h
    simpa [testBit_clearBit, hj] using hclear

theorem clearBit_eq_iff {m m' i : Nat} :
    clearBit m i = clearBit m' i ↔ m = m' ∨ m = m' ^^^ 2 ^ i := by
  constructor
  · intro h
    by_cases hbit : m.testBit i = m'.testBit i
    · exact .inl (eq_of_clearBit_eq h hbit)
    · refine .inr (eq_of_clearBit_eq (h.trans (clearBit_xor_two_pow m' i).symm) ?_)
      rw [testBit_xor_two_pow]
      cases hm : m.testBit i <;> cases hm' : m'.testBit i <;> simp_all
  · rintro (rfl | rfl)
    · rfl
    · exact clearBit_xor_two_pow m' i

theorem maskOfList_lt (bs : List Bool) : maskOfList bs < 2 ^ bs.length := by
  induction bs with
  | nil => simp [maskOfList]
  | cons b bs ih =>
    have hb := Bool.toNat_lt b
    rw [maskOfList, List.length_cons, Nat.pow_succ]
    omega

theorem testBit_maskOfList (bits : List Bool) (i : Nat) :
    (maskOfList bits).testBit i = bits.getD i false := by
  induction bits generalizing i with
  | nil => simp [maskOfList]
  | cons b bits ih =>
    have hsum : maskOfList (b :: bits) = 2 ^ 1 * maskOfList bits + b.toNat := by
      rw [maskOfList, Nat.add_comm, Nat.pow_one]
    cases i with
    | zero => cases b <;> simp [maskOfList]
    | succ i =>
      rw [hsum, Nat.testBit_two_pow_mul_add _ (Bool.toNat_lt b)]
      simp [ih]

def xorSum (f : Nat → Bool) : Nat → Bool
  | 0 => false
  | w + 1 => xorSum f w ^^ f w

theorem xorSum_congr {f g : Nat → Bool} {w : Nat} (h : ∀ i < w, f i = g i) :
    xorSum f w = xorSum g w := by
  induction w with
  | zero => rfl
  | succ w ih => rw [xorSum, xorSum, ih (fun i hi => h i (by omega)), h w (by omega)]

theorem xorSum_false (w : Nat) : xorSum (fun _ => false) w = false := by
  induction w with
  | zero => rfl
  | succ w ih => simp [xorSum, ih]

theorem xorSum_xor (f g : Nat → Bool) (w : Nat) :
    xorSum (fun i => f i ^^ g i) w = (xorSum f w ^^ xorSum g w) := by
  induction w with
  | zero => rfl
  | succ w ih =>
    simp only [xorSum, ih]
    cases xorSum f w <;> cases xorSum g w <;> cases f w <;> cases g w <;> rfl

theorem xorSum_single (q : Nat) (b : Bool) (w : Nat) :
    xorSum (fun i => decide (i = q) && b) w = (decide (q < w) && b) := by
  induction w with
  | zero => simp [xorSum]
  | succ w ih =>
    rw [xorSum, ih]
    rcases Nat.lt_trichotomy q w with h | rfl | h
    · simp [h, Nat.lt_succ_of_lt h, Nat.ne_of_gt h]
    · simp
    · simp [show ¬ q < w by omega, show ¬ q < w + 1 by omega, Nat.ne_of_lt h]

theorem xorSum_extend {f : Nat → Bool} {v w : Nat} (hvw : v ≤ w)
    (h : ∀ i, v ≤ i → i < w → f i = false) : xorSum f w = xorSum f v := by
  induction w with
  | zero => rw [Nat.le_zero.mp hvw]
  | succ w ih =>
    rcases Nat.lt_or_eq_of_le hvw with hlt | rfl
    · rw [xorSum, h w (by omega) (by omega), Bool.xor_false]
      exact ih (by omega) (fun i hv hi => h i hv (by omega))
    · rfl

theorem weight_odd (w m : Nat) : (weight w m % 2 == 1) = xorSum m.testBit w := by
  induction w with
  | zero => rfl
  | succ w ih =>
    have hstep : weight (w + 1) m = weight w m + (m.testBit w).toNat := by
      rw [weight, List.range_succ, List.countP_append, List.countP_singleton]
      cases m.testBit w <;> rfl
    rw [xorSum, ← ih, hstep]
    rcases Nat.mod_two_eq_zero_or_one (weight w m) with h | h <;>
      cases m.testBit w <;> simp [h, Nat.add_mod]

def dot (w mask : Nat) (s : Nat → Bool) : Bool := xorSum (fun i => mask.testBit i && s i) w

theorem dot_congr {w : Nat} (mask : Nat) {s t : Nat → Bool} (h : ∀ i < w, s i = t i) :
    dot w mask s = dot w mask t :=
  xorSum_congr fun i hi => by rw [h i hi]

theorem dot_xor (w a b : Nat) (s : Nat → Bool) :
    dot w (a ^^^ b) s = (dot w a s ^^ dot w b s) := by
  rw [dot, dot, dot, ← xorSum_xor]
  apply xorSum_congr
  intro i _
  rw [Nat.testBit_xor]
  cases a.testBit i <;> cases b.testBit i <;> cases s i <;> rfl

theorem dot_two_pow {w q : Nat} (hq : q < w) (s : Nat → Bool) : dot w (2 ^ q) s = s q := by
  have hsum : dot w (2 ^ q) s = xorSum (fun i => decide (i = q) && s q) w := by
    apply xorSum_congr
    intro i _
    rw [Nat.testBit_two_pow]
    by_cases h : i = q
    · subst h; simp
    · simp [h, Ne.symm h]
  rw [hsum, xorSum_single]
  simp [hq]

theorem dot_zero_state (w mask : Nat) : dot w mask (fun _ => false) = false := by
  simp [dot, xorSum_false]

theorem ne_zero_of_dot {w mask : Nat} {s : Nat → Bool} (h : dot w mask s = true) : mask ≠ 0 := by
  rintro rfl
  simp [dot, xorSum_false] at h

theorem dot_succ_of_lt {w m : Nat} (hm : m < 2 ^ w) (s : Nat → Bool) :
    dot (w + 1) m s = dot w m s := by
  rw [dot, xorSum, Nat.testBit_lt_two_pow hm, Bool.false_and, Bool.xor_false, dot]

theorem dot_succ_add {w m : Nat} (hm : m < 2 ^ w) (s : Nat → Bool) :
    dot (w + 1) (2 ^ w + m) s = (dot w m s ^^ s w) := by
  have hlow : xorSum (fun i => (2 ^ w + m).testBit i && s i) w = dot w m s :=
    xorSum_congr fun i hi => by rw [Nat.testBit_two_pow_add_gt hi]
  rw [dot, xorSum, hlow, Nat.testBit_two_pow_add_eq, Nat.testBit_lt_two_pow hm, Bool.not_false,
    Bool.true_and]

theorem oddOverlap_eq_dot (w a b : Nat) : oddOverlap w a b = dot w a b.testBit := by
  rw [oddOverlap, weight_odd, dot]
  exact xorSum_congr fun i _ => Nat.testBit_and a b i

theorem oddOverlap_packBits {v w mask : Nat} (hvw : v ≤ w) (f : Nat → Bool) :
    oddOverlap w mask (packBits f v) = dot v mask f := by
  rw [oddOverlap_eq_dot, dot, xorSum_extend hvw]
  · apply xorSum_congr
    intro i hi
    simp [testBit_packBits, hi]
  · intro i hv _
    simp [testBit_packBits, Nat.not_lt.mpr hv]

end ReversibleSynthesis
