import ReversibleSynthesis.Proofs.Colouring.Search
import ReversibleSynthesis.Proofs.Except
import ReversibleSynthesis.Proofs.SingleTarget
import ReversibleSynthesis.Proofs.TruthTable

namespace ReversibleSynthesis.Decomposition

open Permutation

variable {n var : Nat} {perm : Array Nat}

section Flip

variable (g : Array Bool)

theorem flip_eq (var x : Nat) :
    flip g var x = if g.getD (clearBit x var) false then x ^^^ 2 ^ var else x := rfl

theorem testBit_flip (var x j : Nat) :
    (flip g var x).testBit j =
      (x.testBit j ^^ (decide (j = var) && g.getD (clearBit x var) false)) := by
  rw [flip_eq]
  split
  · next h => rw [testBit_xor_two_pow, h, Bool.and_true]
  · next h => simp [Bool.eq_false_iff.mpr h]

theorem testBit_flip_self (var x : Nat) :
    (flip g var x).testBit var = (x.testBit var ^^ g.getD (clearBit x var) false) := by
  simp [testBit_flip]

theorem clearBit_flip (var x : Nat) : clearBit (flip g var x) var = clearBit x var := by
  rw [flip_eq]
  split
  · exact clearBit_xor_two_pow x var
  · rfl

theorem flip_flip (var x : Nat) : flip g var (flip g var x) = x := by
  apply Nat.eq_of_testBit_eq
  intro j
  rw [testBit_flip, clearBit_flip, testBit_flip, Bool.xor_assoc, Bool.xor_self, Bool.xor_false]

theorem flip_lt {x : Nat} (hvar : var < n) (hx : x < 2 ^ n) : flip g var x < 2 ^ n := by
  rw [flip_eq]
  split
  · exact xor_two_pow_lt hx hvar
  · exact hx

end Flip

section Residual

variable {right left : Array Bool}

theorem getD_residual (h : Table (2 ^ n) perm) {x : Nat} (hx : x < 2 ^ n) :
    (residual perm var right left).getD x 0 =
      flip left var (perm.getD (flip right var x) 0) := by
  simp only [residual, Array.getD_eq_getD_getElem?, Array.getElem?_map, Array.getElem?_range,
    h.size_eq, hx, if_true, Option.map_some, Option.getD_some]

theorem table_residual (h : Table (2 ^ n) perm) (hvar : var < n) :
    Table (2 ^ n) (residual perm var right left) := by
  constructor
  · simp [residual, h.size_eq]
  · intro x hx
    rw [getD_residual h hx]
    exact flip_lt left hvar (h.lt _ (flip_lt right hvar hx))
  · intro x hx y hy hxy
    rw [getD_residual h hx, getD_residual h hy] at hxy
    have himage := congrArg (flip left var) hxy
    rw [flip_flip, flip_flip] at himage
    have hflip := congrArg (flip right var)
      (h.injective _ (flip_lt right hvar hx) _ (flip_lt right hvar hy) himage)
    rwa [flip_flip, flip_flip] at hflip

theorem getD_eq_flip_residual (h : Table (2 ^ n) perm) (hvar : var < n) {x : Nat} (hx : x < 2 ^ n) :
    flip left var ((residual perm var right left).getD (flip right var x) 0) = perm.getD x 0 := by
  rw [getD_residual h (flip_lt right hvar hx), flip_flip, flip_flip]

theorem testBit_residual_of_ne (h : Table (2 ^ n) perm) (hvar : var < n) {i : Nat} (hi : i ≠ var)
    (hkeep : ∀ x < 2 ^ n, (perm.getD x 0).testBit i = x.testBit i) {x : Nat} (hx : x < 2 ^ n) :
    ((residual perm var right left).getD x 0).testBit i = x.testBit i := by
  rw [getD_residual h hx, testBit_flip, hkeep _ (flip_lt right hvar hx), testBit_flip]
  simp [hi]

theorem testBit_residual_self (h : Table (2 ^ n) perm) (hvar : var < n) {x : Nat} (hx : x < 2 ^ n) :
    ((residual perm var (decompose perm var).1 (decompose perm var).2).getD x 0).testBit var =
      x.testBit var := by
  have hsum := decompose_spec h hvar (flip_lt (decompose perm var).1 hvar hx)
  have hcancel : ∀ b r l v : Bool, (r ^^ l) = (b ^^ r ^^ v) → (v ^^ l) = b := by decide
  rw [clearBit_flip, testBit_flip_self] at hsum
  rw [getD_residual h hx, testBit_flip_self]
  exact hcancel _ _ _ _ hsum

end Residual

def skip (var i : Nat) : Nat := if i < var then i else i + 1

theorem insertZero_eq (var t : Nat) :
    insertZero var t = 2 ^ (var + 1) * (t / 2 ^ var) + t % 2 ^ var := by
  rw [Nat.add_comm, Nat.mul_comm]
  rfl

theorem testBit_insertZero (var t j : Nat) :
    (insertZero var t).testBit j =
      if j < var then t.testBit j else if j = var then false else t.testBit (j - 1) := by
  have hlow : t % 2 ^ var < 2 ^ (var + 1) := by
    have := Nat.mod_lt t (Nat.two_pow_pos var)
    rw [Nat.pow_succ]
    omega
  rw [insertZero_eq, Nat.testBit_two_pow_mul_add _ hlow,
    Nat.testBit_mod_two_pow, Nat.testBit_div_two_pow]
  by_cases hlt : j < var
  · simp [hlt, Nat.lt_succ_of_lt hlt]
  · by_cases heq : j = var
    · simp [heq]
    · have hge : ¬ j < var + 1 := by omega
      have hsub : var + (j - (var + 1)) = j - 1 := by omega
      simp [hlt, heq, hge, hsub, Nat.add_comm]

theorem insertZero_packBits {x : Nat} (hvar : var < n) (hx : x < 2 ^ n) :
    insertZero var (packBits (fun i => x.testBit (skip var i)) (n - 1)) = clearBit x var := by
  apply Nat.eq_of_testBit_eq
  intro j
  rw [testBit_insertZero, testBit_clearBit, testBit_packBits, testBit_packBits]
  rcases Nat.lt_trichotomy j var with hlt | rfl | hgt
  · have hj : j < n - 1 := by omega
    simp [hlt, hj, skip, Nat.ne_of_lt hlt]
  · simp
  · have hskip : skip var (j - 1) = j := by
      rw [skip, if_neg (by omega)]
      omega
    by_cases hj : j - 1 < n - 1
    · simp [Nat.lt_asymm hgt, Nat.ne_of_gt hgt, hskip, hj]
    · have hzero : x.testBit j = false := by
        refine Nat.testBit_lt_two_pow (Nat.lt_of_lt_of_le hx ?_)
        exact Nat.pow_le_pow_right (by decide) (by omega)
      simp [Nat.lt_asymm hgt, Nat.ne_of_gt hgt, hj, hzero]

theorem bit_controlFunction (g : Array Bool) {x : Nat} (hvar : var < n) (hx : x < 2 ^ n) :
    (controlFunction n var g).bit (packBits (fun i => x.testBit (skip var i)) (n - 1)) =
      g.getD (clearBit x var) false := by
  rw [controlFunction, TruthTable.bit_tabulate _ (packBits_lt _ _), insertZero_packBits hvar hx]

def wires (n var : Nat) : List Nat := (List.range n).filter (· != var) ++ [var]

theorem wires_eq (var k : Nat) :
    wires (var + 1 + k) var = List.range var ++ (List.range k).map (var + 1 + ·) ++ [var] := by
  have hlow : (List.range var).filter (· != var) = List.range var :=
    List.filter_eq_self.mpr fun i hi => by simpa using Nat.ne_of_lt (List.mem_range.mp hi)
  have hhigh : ((List.range k).map (var + 1 + ·)).filter (· != var) =
      (List.range k).map (var + 1 + ·) := by
    refine List.filter_eq_self.mpr fun i hi => ?_
    obtain ⟨j, _, rfl⟩ := List.mem_map.mp hi
    simp only [bne_iff_ne, ne_eq]
    omega
  rw [wires, List.range_add, List.range_succ, List.filter_append, List.filter_append, hlow, hhigh]
  simp

theorem length_wires (hvar : var < n) : (wires n var).length = n := by
  obtain ⟨k, rfl⟩ := Nat.exists_eq_add_of_le (Nat.succ_le_of_lt hvar)
  rw [wires_eq]
  simp only [List.length_append, List.length_range, List.length_map, List.length_singleton]
  omega

theorem getElem?_wires {i : Nat} (hvar : var < n) (hi : i < n) :
    (wires n var)[i]? = some (if i < n - 1 then skip var i else var) := by
  obtain ⟨k, rfl⟩ := Nat.exists_eq_add_of_le (Nat.succ_le_of_lt hvar)
  have hlen : (List.range var ++ (List.range k).map (var + 1 + ·)).length = var + k := by simp
  rw [wires_eq, skip]
  by_cases hlast : i < var + k
  · rw [if_pos (by omega), List.getElem?_append_left (hlen.symm ▸ hlast)]
    by_cases hlow : i < var
    · rw [if_pos hlow, List.getElem?_append_left (by simpa using hlow), List.getElem?_range hlow]
    · have hk : i - var < k := by omega
      have hsum : var + 1 + (i - var) = i + 1 := by omega
      rw [if_neg hlow, List.getElem?_append_right (by simpa using hlow), List.length_range,
        List.getElem?_map, List.getElem?_range hk, Option.map_some, hsum]
  · have hi : i = var + k := by omega
    rw [if_neg (by omega), List.getElem?_append_right (by omega), hlen, hi, Nat.sub_self]
    rfl

theorem nodup_wires (n var : Nat) : (wires n var).Nodup := by
  refine List.nodup_append.mpr ⟨List.nodup_range.filter _, List.nodup_singleton _, ?_⟩
  intro i hi j hj heq
  rw [List.mem_filter] at hi
  rw [heq, List.mem_singleton.mp hj] at hi
  simp at hi

theorem exists_wiring {α : Type} {gates : List (Gate α)} (hvar : var < n)
    (hfits : ∀ g ∈ gates, g.Fits n) :
    ∃ f : Nat → Nat, Function.Injective f ∧ (∀ i < n - 1, f i = skip var i) ∧ f (n - 1) = var ∧
      gates.map (Gate.relabel fun w => (wires n var).toArray.getD w 0) =
        gates.map (Gate.relabel f) := by
  obtain ⟨f, hf, hfi, hmap⟩ := Netlist.exists_renaming (nodup_wires n var) fun g hg =>
    (length_wires hvar).symm ▸ (hfits g hg).2
  have hwire : ∀ i < n, f i = if i < n - 1 then skip var i else var := by
    intro i hi
    have hlt : i < (wires n var).length := (length_wires hvar).symm ▸ hi
    have hget := getElem?_wires hvar hi
    rw [List.getElem?_eq_getElem hlt, Option.some.injEq] at hget
    rw [hfi i hlt, hget]
  refine ⟨f, hf, fun i hi => ?_, ?_, hmap⟩
  · rw [hwire i (by omega), if_pos hi]
  · rw [hwire _ (by omega), if_neg (Nat.lt_irrefl _)]

theorem implements_flip {α : Type} {gates : List (Gate α)} {g : Array Bool} {f : Nat → Nat}
    (hvar : var < n) (hf : Function.Injective f) (hskip : ∀ i < n - 1, f i = skip var i)
    (htarget : f (n - 1) = var) (hfits : ∀ gate ∈ gates, gate.Fits n)
    (hrun : ∀ s, after gates s =
      s.toggle (n - 1) ((controlFunction n var g).bit (packBits s (n - 1)))) :
    Implements n (gates.map (Gate.relabel f)) (flip g var) := by
  refine ⟨fun gate hgate => ?_, fun x hx => flip_lt g hvar hx, fun x hx => ?_⟩
  · obtain ⟨gate, hmem, rfl⟩ := List.mem_map.mp hgate
    refine (hfits gate hmem).relabel hf fun i hi => ?_
    rcases Nat.lt_or_eq_of_le (Nat.le_sub_one_of_lt hi) with hlt | rfl
    · rw [hskip i hlt, skip]
      split <;> omega
    · exact htarget.symm ▸ hvar
  · have hread : packBits (fun i => x.testBit (f i)) (n - 1) =
        packBits (fun i => x.testBit (skip var i)) (n - 1) :=
      packBits_congr fun i hi => by rw [hskip i hi]
    funext q
    rw [after_relabel_toggle hf hrun, State.toggle_apply, testBit_flip,
      ← bit_controlFunction g hvar hx, ← hread, htarget]

section Steps

variable {α : Type} [Angle α] {strategy : Strategy}

theorem circuit_step
    (hs : strategy = .pkrm ∨ strategy = .pprm ∧ n - 1 ≤ Strategy.maxPolarityVars)
    (hvar : var < n) (g : Array Bool) :
    ∃ gates : List (Gate α),
      Step.circuit n strategy ⟨var, controlFunction n var g⟩ = .ok gates ∧
      Implements n gates (flip g var) := by
  by_cases hconst : (controlFunction n var g).isConst0 = true
  · refine ⟨[], if_pos hconst, Implements.nil fun x hx => ?_⟩
    rw [flip_eq, ← bit_controlFunction g hvar hx, TruthTable.bit_of_isConst0 hconst]
    rfl
  · obtain ⟨gates, hok, hfits, hrun⟩ :=
      SingleTarget.circuit_spec (α := α) (f := controlFunction n var g) hs
    have hnum : (controlFunction n var g).numVars + 1 = n :=
      Nat.sub_add_cancel (Nat.one_le_of_lt hvar)
    rw [hnum] at hfits
    obtain ⟨f, hf, hskip, htarget, hmap⟩ := exists_wiring hvar hfits
    refine ⟨gates.map (Gate.relabel f), ?_, implements_flip hvar hf hskip htarget hfits hrun⟩
    rw [Step.circuit, if_neg hconst, hok, ← hmap]
    rfl

theorem stepsFrom_spec {vars : List Nat}
    (hs : strategy = .pkrm ∨ strategy = .pprm ∧ n - 1 ≤ Strategy.maxPolarityVars)
    (hvars : ∀ v ∈ vars, v < n) (h : Table (2 ^ n) perm)
    (hkeep : ∀ i < n, i ∉ vars → ∀ x < 2 ^ n, (perm.getD x 0).testBit i = x.testBit i) :
    ∃ circuits : List (List (Gate α)),
      (stepsFrom n perm vars).mapM (Step.circuit n strategy) = .ok circuits ∧
      Implements n circuits.flatten (fun x => perm.getD x 0) := by
  induction vars generalizing perm with
  | nil =>
    refine ⟨[], rfl, Implements.nil fun x hx => ?_⟩
    exact eq_of_testBit_below (h.lt x hx) hx fun i hi => hkeep i hi (List.not_mem_nil) x hx
  | cons var vars ih =>
    have hvar := hvars var List.mem_cons_self
    obtain ⟨first, hfirst, hright⟩ := circuit_step (α := α) hs hvar (decompose perm var).1
    obtain ⟨last, hlast, hleft⟩ := circuit_step (α := α) hs hvar (decompose perm var).2
    have hkept : ∀ i < n, i ∉ vars → ∀ x < 2 ^ n,
        ((residual perm var (decompose perm var).1 (decompose perm var).2).getD x 0).testBit i =
          x.testBit i := by
      intro i hi hmem x hx
      by_cases hne : i = var
      · exact hne ▸ testBit_residual_self h hvar hx
      · exact testBit_residual_of_ne h hvar hne (hkeep i hi (by simp [hne, hmem])) hx
    obtain ⟨inner, hinner, hmiddle⟩ := ih (fun v hv => hvars v (List.mem_cons_of_mem _ hv))
      (table_residual h hvar) hkept
    refine ⟨[first] ++ inner ++ [last], ?_, ?_⟩
    · exact mapM_append_ok (mapM_append_ok (mapM_singleton_ok hfirst) hinner)
        (mapM_singleton_ok hlast)
    · have hall := (hright.append hmiddle).append hleft
      simp only [List.flatten_append, List.flatten_singleton]
      exact hall.congr fun x hx => getD_eq_flip_residual h hvar hx

end Steps

end ReversibleSynthesis.Decomposition

namespace ReversibleSynthesis

theorem synthesizeByDecomposition_realizes {α : Type} [Angle α] {n : Nat} {values : List Nat}
    {strategy : Strategy} (hn : 1 ≤ n) (hmax : n ≤ 20) (hperm : values.Perm (List.range (2 ^ n)))
    (hs : strategy = .pkrm ∨ strategy = .pprm ∧ n ≤ 13) :
    ∃ netlist : Netlist α, synthesizeByDecomposition values strategy = .ok netlist ∧
      netlist.numQubits = n ∧ netlist.isClassical = true ∧
      ∀ x < 2 ^ n, packBits (netlist.run x.testBit).1 n = values.getD x 0 := by
  have hvars : strategy = .pkrm ∨ strategy = .pprm ∧ n - 1 ≤ Strategy.maxPolarityVars :=
    hs.imp_right fun h => ⟨h.1, Nat.sub_le_of_le_add h.2⟩
  obtain ⟨circuits, hok, himplements⟩ := Decomposition.stepsFrom_spec (α := α) hvars
    (fun v hv => List.mem_range.mp hv) (Permutation.table_of_perm hperm)
    (fun i hi hmem => absurd (List.mem_range.mpr hi) hmem)
  obtain ⟨netlist, hnetlist, hsize, hclassical, hrun⟩ := himplements.ofCircuit "dbs"
  refine ⟨netlist, ?_, hsize, hclassical, fun x hx => by simpa using hrun x hx⟩
  have hcircuit : Decomposition.circuit ⟨n, values.toArray⟩ strategy = .ok circuits.flatten := by
    rw [Decomposition.circuit, Decomposition.steps, hok]
    rfl
  rw [synthesizeByDecomposition, Permutation.ofValues_of_perm hn hmax hperm, ← hnetlist]
  simp only [Except.mapError, bind, Except.bind, hcircuit]

theorem synthesizeByDecomposition_realizes_three_bits :
    [7, 1, 4, 3, 0, 2, 6, 5].Perm (List.range (2 ^ 3)) ∧
      ∃ netlist : Netlist Float,
        synthesizeByDecomposition [7, 1, 4, 3, 0, 2, 6, 5] .pprm = .ok netlist ∧
        netlist.numQubits = 3 ∧ netlist.isClassical = true ∧
        ∀ x < 2 ^ 3, packBits (netlist.run x.testBit).1 3 = [7, 1, 4, 3, 0, 2, 6, 5].getD x 0 :=
  have hperm : [7, 1, 4, 3, 0, 2, 6, 5].Perm (List.range (2 ^ 3)) := by decide
  ⟨hperm, synthesizeByDecomposition_realizes (by decide) (by decide) hperm
    (.inr ⟨rfl, by decide⟩)⟩

end ReversibleSynthesis
