import Mathlib.Data.Finset.Card
import Mathlib.Data.List.Nodup
import Mathlib.Data.List.Perm.Basic
import ReversibleSynthesis.Permutation
import ReversibleSynthesis.Proofs.Bits
import ReversibleSynthesis.Proofs.Placement

namespace ReversibleSynthesis

variable {α : Type}

structure Implements (n : Nat) (gs : List (Gate α)) (f : Nat → Nat) : Prop where
  fits : ∀ g ∈ gs, g.Fits n
  lt : ∀ x < 2 ^ n, f x < 2 ^ n
  run : ∀ x < 2 ^ n, after gs x.testBit = (f x).testBit

namespace Implements

variable {n : Nat} {gs hs : List (Gate α)} {f g : Nat → Nat}

theorem nil (h : ∀ x < 2 ^ n, f x = x) : Implements n ([] : List (Gate α)) f where
  fits := by simp
  lt x hx := by rwa [h x hx]
  run x hx := by rw [h x hx, after_nil]

theorem append (hf : Implements n gs f) (hg : Implements n hs g) :
    Implements n (gs ++ hs) (fun x => g (f x)) where
  fits := List.forall_mem_append.mpr ⟨hf.fits, hg.fits⟩
  lt x hx := hg.lt _ (hf.lt x hx)
  run x hx := by rw [after_append, hf.run x hx, hg.run _ (hf.lt x hx)]

theorem congr (h : Implements n gs f) (hfg : ∀ x < 2 ^ n, f x = g x) : Implements n gs g where
  fits := h.fits
  lt x hx := hfg x hx ▸ h.lt x hx
  run x hx := hfg x hx ▸ h.run x hx

theorem ofCircuit (h : Implements n gs f) (name : String) :
    ∃ netlist : Netlist α, Netlist.ofCircuit name n gs = .ok netlist ∧ netlist.numQubits = n ∧
      netlist.isClassical = true ∧
      ∀ x < 2 ^ n, packBits (netlist.run x.testBit).1 n = f x := by
  refine ⟨_, Netlist.ofCircuit_of_valid fun g hg => (h.fits g hg).2,
    Netlist.numQubits_withQubits (α := α) name n, List.all_eq_true.mpr fun g hg => (h.fits g hg).1,
    fun x hx => ?_⟩
  rw [Netlist.run_fst]
  exact packBits_eq (h.lt x hx) fun i _ => congrFun (h.run x hx) i

end Implements

theorem getD_setIfInBounds {β : Type} (a : Array β) (i j : Nat) (v d : β) (hi : i < a.size) :
    (a.setIfInBounds i v).getD j d = if j = i then v else a.getD j d := by
  rw [Array.getD_eq_getD_getElem?, Array.getD_eq_getD_getElem?, Array.getElem?_setIfInBounds]
  by_cases hij : i = j
  · simp [← hij, hi]
  · simp [hij, Ne.symm hij]

namespace Permutation

theorem exists_preimage {size : Nat} {P : Nat → Prop} {f : Nat → Nat}
    (hmaps : ∀ x < size, P x → f x < size ∧ P (f x))
    (hinj : ∀ x < size, ∀ y < size, f x = f y → x = y) {y : Nat} (hy : y < size) (hP : P y) :
    ∃ x < size, P x ∧ f x = y := by
  classical
  let part := (Finset.range size).filter P
  have hmem : ∀ x, x ∈ (part : Set Nat) ↔ x < size ∧ P x := by
    intro x
    rw [Finset.mem_coe, Finset.mem_filter, Finset.mem_range]
  have hmapsTo : Set.MapsTo f part part := fun x hx =>
    (hmem _).mpr (hmaps x ((hmem x).mp hx).1 ((hmem x).mp hx).2)
  have hinjOn : Set.InjOn f part := fun x hx y hy hxy =>
    hinj x ((hmem x).mp hx).1 y ((hmem y).mp hy).1 hxy
  obtain ⟨x, hx, hxy⟩ := Finset.surjOn_of_injOn_of_card_le f hmapsTo hinjOn (Nat.le_refl _)
    ((hmem y).mpr ⟨hy, hP⟩)
  exact ⟨x, ((hmem x).mp hx).1, ((hmem x).mp hx).2, hxy⟩

structure Table (size : Nat) (images : Array Nat) : Prop where
  size_eq : images.size = size
  lt : ∀ x < size, images.getD x 0 < size
  injective : ∀ x < size, ∀ y < size, images.getD x 0 = images.getD y 0 → x = y

theorem Table.surjective {size : Nat} {images : Array Nat} (h : Table size images) {y : Nat}
    (hy : y < size) : ∃ x < size, images.getD x 0 = y := by
  obtain ⟨x, hx, _, hxy⟩ := exists_preimage (P := fun _ => True)
    (fun x hx _ => ⟨h.lt x hx, trivial⟩) h.injective hy trivial
  exact ⟨x, hx, hxy⟩

theorem table_iff_nodup {size : Nat} {values : List Nat} :
    Table size values.toArray ↔
      values.length = size ∧ values.Nodup ∧ ∀ v ∈ values, v < size := by
  have hget : ∀ x (hx : x < values.length), values.toArray.getD x 0 = values[x] := by
    intro x hx
    simp [hx]
  constructor
  · intro h
    have hlen : values.length = size := h.size_eq
    refine ⟨hlen, List.nodup_iff_injective_getElem.mpr fun x y hxy => ?_, fun v hv => ?_⟩
    · refine Fin.ext (h.injective x (hlen ▸ x.isLt) y (hlen ▸ y.isLt) ?_)
      rw [hget x x.isLt, hget y y.isLt]
      exact hxy
    · obtain ⟨x, hx, rfl⟩ := List.getElem_of_mem hv
      rw [← hget x hx]
      exact h.lt x (hlen ▸ hx)
  · rintro ⟨rfl, hnodup, hlt⟩
    refine ⟨List.size_toArray, fun x hx => ?_, fun x hx y hy hxy => ?_⟩
    · rw [hget x hx]
      exact hlt _ (List.getElem_mem hx)
    · rw [hget x hx, hget y hy] at hxy
      exact hnodup.getElem_inj_iff.mp hxy

theorem table_of_perm {size : Nat} {values : List Nat} (h : values.Perm (List.range size)) :
    Table size values.toArray :=
  table_iff_nodup.mpr ⟨by simpa using h.length_eq, h.nodup_iff.mpr List.nodup_range,
    fun _ hv => List.mem_range.mp (h.mem_iff.mp hv)⟩

theorem checkValues_eq_ok_iff {values : List Nat} {seen : Array Bool} {position : Nat} :
    checkValues position seen values = .ok () ↔
      values.Nodup ∧ ∀ v ∈ values, seen[v]? = some false := by
  induction values generalizing seen position with
  | nil => simp [checkValues]
  | cons v values ih =>
    rw [List.nodup_cons, List.forall_mem_cons, checkValues]
    cases hv : seen[v]? with
    | none => simp
    | some mark =>
      cases mark with
      | true => simp
      | false =>
        -- the mark on `v` refuses a second `v` and nothing else
        have hlt : v < seen.size := (Array.getElem?_eq_some_iff.mp hv).1
        have hmark : ∀ w, (seen.setIfInBounds v true)[w]? = some false ↔
            v ≠ w ∧ seen[w]? = some false := by
          intro w
          by_cases hvw : v = w
          · subst hvw
            simp [hlt]
          · simp [hvw]
        simp only [ih, hmark, true_and]
        constructor
        · rintro ⟨hnodup, hrest⟩
          exact ⟨⟨fun hmem => (hrest v hmem).1 rfl, hnodup⟩, fun w hw => (hrest w hw).2⟩
        · rintro ⟨⟨hmem, hnodup⟩, hrest⟩
          exact ⟨hnodup, fun w hw => ⟨fun heq => hmem (heq ▸ hw), hrest w hw⟩⟩

theorem ofValues_eq_ok_iff {values : List Nat} {p : Permutation} :
    ofValues values = .ok p ↔ ∃ n, 1 ≤ n ∧ n ≤ TruthTable.maxVars ∧
      Table (2 ^ n) values.toArray ∧ p = ⟨n, values.toArray⟩ := by
  have hcheck : checkValues 0 (Array.replicate values.length false) values = .ok () ↔
      Table values.length values.toArray := by
    rw [checkValues_eq_ok_iff, table_iff_nodup]
    simp [Array.getElem?_replicate]
  constructor
  · intro h
    unfold ofValues at h
    dsimp only at h
    split at h
    · cases h
    · next n hlog =>
      split at h
      · cases h
      · next hn =>
        split at h
        · cases h
        · next hmax =>
          split at h
          · cases h
          · next hok =>
            cases h
            refine ⟨n, Nat.pos_of_ne_zero hn, Nat.not_lt.mp hmax, ?_, rfl⟩
            rw [← powerOfTwoLog?_eq_some_iff.mp hlog]
            exact hcheck.mp hok
  · rintro ⟨n, hn, hmax, htable, rfl⟩
    have hlen : values.length = 2 ^ n := htable.size_eq
    rw [← hlen] at htable
    simp only [ofValues, powerOfTwoLog?_eq_some_iff.mpr hlen, hcheck.mpr htable,
      if_neg (Nat.ne_of_gt hn), if_neg (Nat.not_lt.mpr hmax)]

theorem ofValues_of_perm {n : Nat} {values : List Nat} (hn : 1 ≤ n) (hmax : n ≤ TruthTable.maxVars)
    (h : values.Perm (List.range (2 ^ n))) : ofValues values = .ok ⟨n, values.toArray⟩ :=
  ofValues_eq_ok_iff.mpr ⟨n, hn, hmax, table_of_perm h, rfl⟩

section Invert

variable {size : Nat} {images : Array Nat}

theorem foldl_invert (h : Table size images) (k : Nat) (hk : k ≤ size) :
    let table := (List.range k).foldl
      (fun inverse x => inverse.setIfInBounds (images.getD x 0) x) (Array.replicate size 0)
    table.size = size ∧ ∀ x < k, table.getD (images.getD x 0) 0 = x := by
  induction k with
  | zero => simp
  | succ k ih =>
    obtain ⟨hsize, hinv⟩ := ih (by omega)
    simp only [List.range_succ, List.foldl_append, List.foldl_cons, List.foldl_nil] at hsize hinv ⊢
    refine ⟨by rw [Array.size_setIfInBounds, hsize], fun x hx => ?_⟩
    have hlt : images.getD k 0 < size := h.lt k (by omega)
    rw [getD_setIfInBounds _ _ _ _ _ (hsize.symm ▸ hlt)]
    split
    · next heq => exact (h.injective x (by omega) k (by omega) heq).symm
    · next hne =>
      refine hinv x (Nat.lt_of_le_of_ne (Nat.le_of_lt_succ hx) ?_)
      rintro rfl
      exact hne rfl

theorem getD_invert (h : Table size images) {x : Nat} (hx : x < size) :
    (invert images).getD (images.getD x 0) 0 = x := by
  rw [invert, h.size_eq]
  exact (foldl_invert h size (Nat.le_refl _)).2 x hx

theorem invert_lt (h : Table size images) {y : Nat} (hy : y < size) :
    (invert images).getD y 0 < size := by
  obtain ⟨x, hx, rfl⟩ := h.surjective hy
  rwa [getD_invert h hx]

theorem getD_getD_invert (h : Table size images) {y : Nat} (hy : y < size) :
    images.getD ((invert images).getD y 0) 0 = y := by
  obtain ⟨x, hx, rfl⟩ := h.surjective hy
  rw [getD_invert h hx]

end Invert

end Permutation

end ReversibleSynthesis
