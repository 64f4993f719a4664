import Mathlib.Data.Set.Function
import Mathlib.Order.Interval.Set.Basic
import ReversibleSynthesis.Proofs.Permutation

namespace ReversibleSynthesis.Permutation

section Tables

variable {size : Nat} {images : Array Nat}

theorem table_iff_bijOn {values : List Nat} :
    Table size values.toArray ↔ values.length = size ∧
      Set.BijOn (fun x => values.getD x 0) (Set.Iio size) (Set.Iio size) := by
  have hget : ∀ x, values.toArray.getD x 0 = values.getD x 0 := by
    intro x
    rw [Array.getD_eq_getD_getElem?, List.getElem?_toArray, List.getD_eq_getElem?_getD]
  constructor
  · intro h
    refine ⟨h.size_eq, ?_⟩
    simp only [← hget]
    exact ⟨h.lt, fun x hx y hy => h.injective x hx y hy, fun y hy => h.surjective hy⟩
  · rintro ⟨hlen, hmaps, hinj, _⟩
    simp only [← hget] at hmaps hinj
    exact ⟨hlen, fun x hx => hmaps hx, fun x hx y hy => hinj hx hy⟩

theorem Table.getElem?_eq (h : Table size images) {x : Nat} (hx : x < size) :
    images[x]? = some (images.getD x 0) := by
  have hlt : x < images.size := h.size_eq.symm ▸ hx
  simp [hlt]

theorem Table.eq_of_getD {images' : Array Nat} (h : Table size images) (h' : Table size images')
    (heq : ∀ x < size, images.getD x 0 = images'.getD x 0) : images = images' := by
  refine Array.ext (h.size_eq.trans h'.size_eq.symm) fun x hx hx' => ?_
  simpa [hx, hx'] using heq x (h.size_eq ▸ hx)

theorem Table.invert (h : Table size images) : Table size (invert images) where
  size_eq := by
    rw [Permutation.invert, h.size_eq]
    exact (foldl_invert h size (Nat.le_refl _)).1
  lt _ hy := invert_lt h hy
  injective y hy z hz heq := by rw [← getD_getD_invert h hy, heq, getD_getD_invert h hz]

theorem Table.invert_invert (h : Table size images) :
    Permutation.invert (Permutation.invert images) = images := by
  refine h.invert.invert.eq_of_getD h fun x hx => ?_
  refine h.invert.injective _ (h.invert.invert.lt x hx) _ (h.lt x hx) ?_
  rw [getD_getD_invert h.invert hx, getD_invert h hx]

end Tables

section Accepted

variable {values : List Nat} {p : Permutation}

theorem exists_ofValues_iff :
    (∃ p, ofValues values = .ok p) ↔
      ∃ n, 1 ≤ n ∧ n ≤ TruthTable.maxVars ∧ Table (2 ^ n) values.toArray := by
  simp only [ofValues_eq_ok_iff]
  constructor
  · rintro ⟨_, n, hn, hmax, htable, _⟩
    exact ⟨n, hn, hmax, htable⟩
  · rintro ⟨n, hn, hmax, htable⟩
    exact ⟨_, n, hn, hmax, htable, rfl⟩

theorem table_of_ofValues (h : ofValues values = .ok p) : Table (2 ^ p.numVars) p.values := by
  obtain ⟨n, _, _, htable, rfl⟩ := ofValues_eq_ok_iff.mp h
  exact htable

theorem ofValues_inverse (h : ofValues values = .ok p) :
    ofValues p.inverse.values.toList = .ok p.inverse := by
  obtain ⟨n, hn, hmax, htable, rfl⟩ := ofValues_eq_ok_iff.mp h
  exact ofValues_eq_ok_iff.mpr ⟨n, hn, hmax, htable.invert, rfl⟩

theorem image?_inverse_image? (h : Table (2 ^ p.numVars) p.values) {x : Nat}
    (hx : x < 2 ^ p.numVars) : (p.image? x).bind p.inverse.image? = some x := by
  rw [image?, h.getElem?_eq hx, Option.bind_some, image?, inverse, h.invert.getElem?_eq (h.lt x hx),
    getD_invert h hx]

theorem image?_image?_inverse (h : Table (2 ^ p.numVars) p.values) {x : Nat}
    (hx : x < 2 ^ p.numVars) : (p.inverse.image? x).bind p.image? = some x := by
  rw [image?, inverse, h.invert.getElem?_eq hx, Option.bind_some, image?,
    h.getElem?_eq (h.invert.lt x hx), getD_getD_invert h hx]

theorem inverse_inverse (h : Table (2 ^ p.numVars) p.values) : p.inverse.inverse = p := by
  rw [inverse, inverse, h.invert_invert]

theorem ofValues_exact (values : List Nat) :
    ((∃ p, ofValues values = .ok p) ↔ ∃ n, 1 ≤ n ∧ n ≤ 20 ∧ values.length = 2 ^ n ∧
      Set.BijOn (fun x => values.getD x 0) (Set.Iio (2 ^ n)) (Set.Iio (2 ^ n))) ∧
    ∀ p, ofValues values = .ok p →
      p.values.toList = values ∧ values.length = 2 ^ p.numVars ∧
      ofValues p.inverse.values.toList = .ok p.inverse ∧
      (∀ x < 2 ^ p.numVars, (p.image? x).bind p.inverse.image? = some x ∧
        (p.inverse.image? x).bind p.image? = some x) ∧
      p.inverse.inverse = p := by
  constructor
  · rw [exists_ofValues_iff]
    simp only [table_iff_bijOn]
    rfl
  · intro p hp
    have htable := table_of_ofValues hp
    obtain ⟨n, _, _, hvalues, rfl⟩ := ofValues_eq_ok_iff.mp hp
    exact ⟨rfl, hvalues.size_eq, ofValues_inverse hp,
      fun x hx => ⟨image?_inverse_image? htable hx, image?_image?_inverse htable hx⟩,
      inverse_inverse htable⟩

theorem ofValues_exact_three_bits :
    ∃ p, ofValues [0, 2, 3, 5, 7, 1, 4, 6] = .ok p ∧
      ofValues [0, 5, 1, 2, 6, 3, 7, 4] = .ok p.inverse ∧
      (p.image? 3).bind p.inverse.image? = some 3 ∧ p.inverse.inverse = p := by
  have hp : ofValues [0, 2, 3, 5, 7, 1, 4, 6] = .ok ⟨3, #[0, 2, 3, 5, 7, 1, 4, 6]⟩ := by
    decide +kernel
  obtain ⟨_, _, hinverse, himages, htwice⟩ := (ofValues_exact _).2 _ hp
  exact ⟨_, hp, hinverse, (himages 3 (by decide)).1, htwice⟩

end Accepted

end ReversibleSynthesis.Permutation
