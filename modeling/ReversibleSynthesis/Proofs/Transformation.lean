import ReversibleSynthesis.Proofs.Permutation
import ReversibleSynthesis.Synthesis.Transformation

namespace ReversibleSynthesis.Transformation

open Permutation

variable {α : Type} {n : Nat} {perm : Array Nat}

theorem flip_eq (controls target v : Nat) :
    flip controls target v = if v &&& controls = controls then v ^^^ 2 ^ target else v := rfl

section Flip

variable {controls target : Nat} (hc : controls < 2 ^ n)

include hc

theorem act_mcx_setBits (v : Nat) :
    (Gate.mcx (setBits n controls) target : Gate α).act v.testBit =
      (flip controls target v).testBit := by
  funext i
  rw [Gate.act_mcx, State.toggle_apply, flip_eq]
  split
  · next h => rw [(all_setBits_iff hc v).mpr h, testBit_xor_two_pow, Bool.and_true]
  · next h =>
    rw [Bool.eq_false_iff.mpr fun hall => h ((all_setBits_iff hc v).mp hall), Bool.and_false,
      Bool.xor_false]

theorem flip_flip (ht : controls.testBit target = false) (v : Nat) :
    flip controls target (flip controls target v) = v := by
  have hact := (Gate.mcx (setBits n controls) target : Gate Unit).act_act (notMem_setBits ht)
    v.testBit
  rw [act_mcx_setBits hc, act_mcx_setBits hc] at hact
  exact Nat.eq_of_testBit_eq fun i => congrFun hact i

end Flip

theorem flip_lt {controls target v : Nat} (ht : target < n) (hv : v < 2 ^ n) :
    flip controls target v < 2 ^ n := by
  rw [flip_eq]
  split
  · exact xor_two_pow_lt hv ht
  · exact hv

theorem flip_of_lt {controls target v : Nat} (hv : v < controls) : flip controls target v = v := by
  rw [flip_eq, if_neg]
  intro heq
  have : v &&& controls ≤ v := Nat.and_le_left
  omega

def circuitOf (n : Nat) (gates : List (Nat × Nat)) : List (Gate α) :=
  gates.map fun e => Gate.mcx (setBits n e.1) e.2

structure Fixes (α : Type) (n : Nat) (perm : Array Nat) (x : Nat) (p : Progress) : Prop where
  table : Table (2 ^ n) p.images
  below : ∀ w < x, p.images.getD w 0 = w
  fits : ∀ g ∈ (circuitOf n p.gates : List (Gate α)), g.Fits n
  run : ∀ w < 2 ^ n, after (circuitOf n p.gates : List (Gate α)) (p.images.getD w 0).testBit =
    (perm.getD w 0).testBit

theorem getD_apply {p : Progress} {controls target w : Nat} (hw : w < p.images.size) :
    (p.apply controls target).images.getD w 0 = flip controls target (p.images.getD w 0) := by
  simp [Progress.apply, Array.getD_eq_getD_getElem?, hw]

theorem Fixes.apply {x : Nat} {p : Progress} (h : Fixes α n perm x p) {controls target : Nat}
    (hx : x < 2 ^ n) (hle : x ≤ controls) (hc : controls < 2 ^ n) (ht : target < n)
    (hbit : controls.testBit target = false) : Fixes α n perm x (p.apply controls target) := by
  have himage : ∀ w < 2 ^ n, (p.apply controls target).images.getD w 0 =
      flip controls target (p.images.getD w 0) := fun w hw => getD_apply (h.table.size_eq.symm ▸ hw)
  constructor
  · constructor
    · simp [Progress.apply, h.table.size_eq]
    · intro w hw
      rw [himage w hw]
      exact flip_lt ht (h.table.lt w hw)
    · intro w hw w' hw' heq
      rw [himage w hw, himage w' hw'] at heq
      have hflip := congrArg (flip controls target) heq
      rw [flip_flip hc hbit, flip_flip hc hbit] at hflip
      exact h.table.injective w hw w' hw' hflip
  · intro w hw
    rw [himage w (Nat.lt_trans hw hx), h.below w hw, flip_of_lt (Nat.lt_of_lt_of_le hw hle)]
  · refine List.forall_mem_cons.mpr ⟨?_, h.fits⟩
    exact Gate.fits_mcx (fun c hc => (mem_setBits.mp hc).1) (nodup_setBits n controls) ht
      (notMem_setBits hbit)
  · intro w hw
    -- the new gate comes first and undoes what it did to the image
    rw [himage w hw, Progress.apply, circuitOf, List.map_cons, after_cons, act_mcx_setBits hc,
      flip_flip hc hbit]
    exact h.run w hw

theorem setMissing_cons (p : Progress) (y b : Nat) (bits : List Nat) :
    setMissing p y (b :: bits) = setMissing (p.apply y b) (y ||| 2 ^ b) bits := rfl

theorem Fixes.setMissing {x y : Nat} {p : Progress} {bits : List Nat} (h : Fixes α n perm x p)
    (hx : x < 2 ^ n) (hle : x ≤ y) (hy : p.images.getD x 0 = y) (hnodup : bits.Nodup)
    (hbits : ∀ b ∈ bits, b < n ∧ y.testBit b = false) :
    Fixes α n perm x (setMissing p y bits).1 ∧
      (setMissing p y bits).1.images.getD x 0 = (setMissing p y bits).2 ∧
      ∀ i, (setMissing p y bits).2.testBit i = (y.testBit i || decide (i ∈ bits)) := by
  induction bits generalizing p y with
  | nil => exact ⟨h, hy, by simp [Transformation.setMissing]⟩
  | cons b bits ih =>
    obtain ⟨hb, hnodup⟩ := List.nodup_cons.mp hnodup
    obtain ⟨hlt, hfree⟩ := hbits b List.mem_cons_self
    have hset : ∀ i, (y ||| 2 ^ b).testBit i = (y.testBit i || decide (i = b)) := by
      intro i
      rw [Nat.testBit_or, Nat.testBit_two_pow]
      simp [eq_comm]
    have hyn : y < 2 ^ n := hy ▸ h.table.lt x hx
    have himage : (p.apply y b).images.getD x 0 = y ||| 2 ^ b := by
      rw [getD_apply (h.table.size_eq.symm ▸ hx), hy, flip_eq, if_pos (Nat.and_self y)]
      apply Nat.eq_of_testBit_eq
      intro i
      rw [hset, testBit_xor_two_pow]
      by_cases hi : i = b <;> simp [hi, hfree]
    have hbits' : ∀ c ∈ bits, c < n ∧ (y ||| 2 ^ b).testBit c = false := by
      intro c hc
      have hne : c ≠ b := fun heq => hb (heq ▸ hc)
      obtain ⟨hcn, hcy⟩ := hbits c (List.mem_cons_of_mem _ hc)
      exact ⟨hcn, by simp [hset, hcy, hne]⟩
    obtain ⟨hfixes, himages, hspec⟩ := ih (h.apply hx hle hyn hlt hfree)
      (Nat.le_trans hle Nat.left_le_or) himage hnodup hbits'
    refine ⟨hfixes, himages, fun i => ?_⟩
    rw [setMissing_cons, hspec, hset]
    simp [Bool.or_assoc]

theorem Fixes.clearSurplus {x : Nat} {p : Progress} {bits : List Nat} (h : Fixes α n perm x p)
    (hx : x < 2 ^ n) (hsub : ∀ i, x.testBit i = true → (p.images.getD x 0).testBit i = true)
    (hnodup : bits.Nodup) (hbits : ∀ b ∈ bits, b < n ∧ x.testBit b = false) :
    Fixes α n perm x (bits.foldl (fun p b => p.apply x b) p) ∧
      ∀ i, ((bits.foldl (fun p b => p.apply x b) p).images.getD x 0).testBit i =
        ((p.images.getD x 0).testBit i ^^ decide (i ∈ bits)) := by
  induction bits generalizing p with
  | nil => exact ⟨h, by simp⟩
  | cons b bits ih =>
    obtain ⟨hb, hnodup⟩ := List.nodup_cons.mp hnodup
    obtain ⟨hlt, hfree⟩ := hbits b List.mem_cons_self
    have hcontains : p.images.getD x 0 &&& x = x := by
      apply Nat.eq_of_testBit_eq
      intro i
      rw [Nat.testBit_and]
      cases hi : x.testBit i with
      | false => rw [Bool.and_false]
      | true => rw [hsub i hi, Bool.and_true]
    have himage : ∀ i, ((p.apply x b).images.getD x 0).testBit i =
        ((p.images.getD x 0).testBit i ^^ decide (i = b)) := by
      intro i
      rw [getD_apply (h.table.size_eq.symm ▸ hx), flip_eq, if_pos hcontains, testBit_xor_two_pow]
    have hsub' : ∀ i, x.testBit i = true → ((p.apply x b).images.getD x 0).testBit i = true := by
      intro i hi
      have hne : i ≠ b := by
        rintro rfl
        rw [hfree] at hi
        cases hi
      rw [himage, hsub i hi]
      simp [hne]
    obtain ⟨hfixes, hspec⟩ := ih (h.apply hx (Nat.le_refl x) hx hlt hfree) hsub' hnodup
      fun c hc => hbits c (List.mem_cons_of_mem _ hc)
    refine ⟨hfixes, fun i => ?_⟩
    rw [List.foldl_cons, hspec, himage]
    by_cases hi : i = b
    · simp [hi, hb]
    · simp [hi]

def difference (n a b : Nat) : List Nat := (setBits n a).filter fun i => !b.testBit i

theorem mem_difference {a b i : Nat} :
    i ∈ difference n a b ↔ i < n ∧ a.testBit i = true ∧ b.testBit i = false := by
  simp [difference, mem_setBits, and_assoc]

theorem nodup_difference (n a b : Nat) : (difference n a b).Nodup := (nodup_setBits n a).filter _

theorem fix_eq (n : Nat) (p : Progress) (x : Nat) :
    fix n p x =
      (difference n (setMissing p (p.images.getD x 0) (difference n x (p.images.getD x 0))).2 x).foldl
        (fun p b => p.apply x b)
        (setMissing p (p.images.getD x 0) (difference n x (p.images.getD x 0))).1 := rfl

theorem Fixes.fix {x : Nat} {p : Progress} (h : Fixes α n perm x p) (hx : x < 2 ^ n) :
    Fixes α n perm (x + 1) (fix n p x) := by
  have hle : x ≤ p.images.getD x 0 := by
    by_contra hlt
    have hsame := h.below _ (Nat.lt_of_not_le hlt)
    have := h.table.injective _ (h.table.lt x hx) x hx hsame
    omega
  obtain ⟨hset, himage, hbits⟩ := h.setMissing hx hle rfl (nodup_difference n x _)
    fun b hb => ⟨(mem_difference.mp hb).1, (mem_difference.mp hb).2.2⟩
  rw [fix_eq]
  generalize Transformation.setMissing p (p.images.getD x 0) (difference n x (p.images.getD x 0)) =
    result at hset himage hbits ⊢
  have hsub : ∀ i, x.testBit i = true → result.2.testBit i = true := by
    intro i hi
    rw [hbits i]
    cases hbit : (p.images.getD x 0).testBit i with
    | true => rfl
    | false => exact decide_eq_true (mem_difference.mpr ⟨lt_of_testBit_eq_true hx hi, hi, hbit⟩)
  obtain ⟨hclear, hfinal⟩ := hset.clearSurplus hx (himage.symm ▸ hsub) (nodup_difference n result.2 x)
    fun b hb => ⟨(mem_difference.mp hb).1, (mem_difference.mp hb).2.2⟩
  refine ⟨hclear.table, fun w hw => ?_, hclear.fits, hclear.run⟩
  rcases Nat.lt_or_eq_of_le (Nat.le_of_lt_succ hw) with hlt | rfl
  · exact hclear.below w hlt
  · refine eq_of_testBit_below (hclear.table.lt w hx) hx fun i hi => ?_
    rw [hfinal i, himage]
    cases hwi : w.testBit i with
    | true => simp [mem_difference, hsub i hwi, hwi]
    | false => simp [mem_difference, hwi, hi]

theorem fixes_reduce {k : Nat} (h : Table (2 ^ n) perm) (hk : k ≤ 2 ^ n) :
    Fixes α n perm k ((List.range k).foldl (fix n) ⟨perm, []⟩) := by
  induction k with
  | zero => exact ⟨h, by simp, by simp [circuitOf], fun w _ => rfl⟩
  | succ k ih =>
    rw [List.range_succ, List.foldl_append, List.foldl_cons, List.foldl_nil]
    exact (ih (by omega)).fix (by omega)

theorem implements_circuit (h : Table (2 ^ n) perm) :
    Implements n (circuit ⟨n, perm⟩ : List (Gate α)) (fun x => perm.getD x 0) := by
  have hfixes : Fixes α n perm (2 ^ n) (reduce ⟨n, perm⟩) := by
    rw [reduce, Permutation.size, h.size_eq]
    exact fixes_reduce h (Nat.le_refl _)
  refine ⟨hfixes.fits, h.lt, fun x hx => ?_⟩
  have hrun := hfixes.run x hx
  rw [hfixes.below x hx] at hrun
  exact hrun

end ReversibleSynthesis.Transformation

namespace ReversibleSynthesis

theorem synthesizeByTransformation_realizes {α : Type} {n : Nat} {values : List Nat} (hn : 1 ≤ n)
    (hmax : n ≤ 20) (hperm : values.Perm (List.range (2 ^ n))) :
    ∃ netlist : Netlist α, synthesizeByTransformation values = .ok netlist ∧
      netlist.numQubits = n ∧ netlist.isClassical = true ∧
      ∀ x < 2 ^ n, packBits (netlist.run x.testBit).1 n = values.getD x 0 := by
  have himplements := Transformation.implements_circuit (α := α) (Permutation.table_of_perm hperm)
  obtain ⟨netlist, hnetlist, hsize, hclassical, hrun⟩ := himplements.ofCircuit "tbs"
  refine ⟨netlist, ?_, hsize, hclassical, fun x hx => by simpa using hrun x hx⟩
  rw [synthesizeByTransformation, Permutation.ofValues_of_perm hn hmax hperm, ← hnetlist]
  rfl

theorem synthesizeByTransformation_realizes_three_bits :
    [7, 1, 4, 3, 0, 2, 6, 5].Perm (List.range (2 ^ 3)) ∧
      ∃ netlist : Netlist Nat,
        synthesizeByTransformation [7, 1, 4, 3, 0, 2, 6, 5] = .ok netlist ∧
        netlist.numQubits = 3 ∧ netlist.isClassical = true ∧
        ∀ x < 2 ^ 3, packBits (netlist.run x.testBit).1 3 = [7, 1, 4, 3, 0, 2, 6, 5].getD x 0 :=
  have hperm : [7, 1, 4, 3, 0, 2, 6, 5].Perm (List.range (2 ^ 3)) := by decide
  ⟨hperm, synthesizeByTransformation_realizes (by decide) (by decide) hperm⟩

end ReversibleSynthesis
