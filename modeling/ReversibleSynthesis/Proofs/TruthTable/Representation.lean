import ReversibleSynthesis.Proofs.TruthTable

namespace ReversibleSynthesis.TruthTable

section Words

variable {t : TruthTable}

theorem Packed.unused_word (h : t.Packed) {w i : Nat} (hw : w < t.words.size) (hi : i < 64)
    (hpast : 2 ^ t.numVars ≤ 64 * w + i) : t.words[w].toNat.testBit i = false := by
  rw [← bit_word hw hi]
  exact h.unused _ hpast

theorem foldl_weight (words : List UInt64) (k : Nat) :
    words.foldl (fun k w => k + weight 64 w.toNat) k =
      k + (List.range (64 * words.length)).countP
        fun x => (words.getD (x / 64) 0).toNat.testBit (x % 64) := by
  induction words generalizing k with
  | nil => simp
  | cons word words ih =>
    have hsplit : 64 * (word :: words).length = 64 + 64 * words.length := by
      rw [List.length_cons]
      omega
    have hfirst : (List.range 64).countP
        (fun x => ((word :: words).getD (x / 64) 0).toNat.testBit (x % 64)) =
          weight 64 word.toNat := by
      refine List.countP_congr fun x hx => ?_
      have hlt := List.mem_range.mp hx
      rw [Nat.div_eq_of_lt hlt, Nat.mod_eq_of_lt hlt]
      rfl
    have hrest : ((List.range (64 * words.length)).map (64 + ·)).countP
        (fun x => ((word :: words).getD (x / 64) 0).toNat.testBit (x % 64)) =
          (List.range (64 * words.length)).countP
            fun x => (words.getD (x / 64) 0).toNat.testBit (x % 64) := by
      rw [List.countP_map]
      refine List.countP_congr fun x _ => ?_
      rw [Function.comp_apply, Nat.add_div_left x (by decide), Nat.add_mod_left]
      rfl
    rw [List.foldl_cons, ih, hsplit, List.range_add, List.countP_append, hfirst, hrest,
      Nat.add_assoc]

theorem countOnes_eq_countP_words (t : TruthTable) :
    t.countOnes = (List.range (64 * t.words.size)).countP t.bit := by
  have hbit : ∀ x, (t.words.toList.getD (x / 64) 0).toNat.testBit (x % 64) = t.bit x := by
    intro x
    rw [bit, Array.getD_eq_getD_getElem?, List.getD_eq_getElem?_getD, Array.getElem?_toList]
  rw [countOnes, ← Array.foldl_toList, foldl_weight, Nat.zero_add, Array.length_toList]
  exact List.countP_congr fun x _ => by rw [hbit]

theorem Packed.countOnes_eq (h : t.Packed) :
    t.countOnes = (List.range (2 ^ t.numVars)).countP t.bit := by
  have hwords : t.words.size = (2 ^ t.numVars + 63) / 64 := h.words
  obtain ⟨unused, hsize⟩ : ∃ unused, 64 * t.words.size = 2 ^ t.numVars + unused :=
    Nat.exists_eq_add_of_le (by omega)
  have hnone : ((List.range unused).map (2 ^ t.numVars + ·)).countP t.bit = 0 := by
    refine List.countP_eq_zero.mpr fun x hx => ?_
    obtain ⟨y, _, rfl⟩ := List.mem_map.mp hx
    rw [h.unused _ (Nat.le_add_right _ _)]
    exact Bool.false_ne_true
  rw [countOnes_eq_countP_words, hsize, List.range_add, List.countP_append, hnone, Nat.add_zero]

theorem Packed.isConst0_iff (h : t.Packed) :
    t.isConst0 = true ↔ ∀ x < 2 ^ t.numVars, t.bit x = false := by
  constructor
  · intro hconst x _
    exact bit_of_isConst0 hconst x
  · intro hfalse
    have hbit : ∀ x, t.bit x = false := by
      intro x
      rcases Nat.lt_or_ge x (2 ^ t.numVars) with hx | hx
      · exact hfalse x hx
      · exact h.unused x hx
    rw [isConst0, Array.all_eq_true]
    intro w hw
    refine beq_iff_eq.mpr (UInt64.toNat_inj.mp ?_)
    refine eq_of_testBit_below (w := 64) (UInt64.toNat_lt _) (by decide) fun i hi => ?_
    rw [← bit_word hw hi, hbit]
    exact (Nat.zero_testBit i).symm

end Words

theorem Packed.eq_iff {a b : TruthTable} (ha : a.Packed) (hb : b.Packed)
    (hvars : a.numVars = b.numVars) : a = b ↔ ∀ x < 2 ^ a.numVars, a.bit x = b.bit x := by
  constructor
  · rintro rfl x _
    rfl
  · exact ha.eq_of_bit_eq hb hvars

def Pointwise (op : TruthTable → TruthTable → TruthTable) (f : Bool → Bool → Bool)
    (a b : TruthTable) : Prop :=
  ∃ t, combine? op a b = some t ∧ t.numVars = a.numVars ∧
    ∀ x < 2 ^ a.numVars, ∃ p q, a.bit? x = some p ∧ b.bit? x = some q ∧ t.bit? x = some (f p q)

section Operators

variable {a b : TruthTable} (ha : a.Packed) (hb : b.Packed) (hvars : a.numVars = b.numVars)

include ha hb hvars

theorem Packed.pointwise {op : UInt64 → UInt64 → UInt64} {f : Bool → Bool → Bool}
    (hbit : ∀ x, (a.combine op b).bit x = f (a.bit x) (b.bit x)) :
    Pointwise (combine op) f a b := by
  refine ⟨a.combine op b, if_pos hvars, rfl, fun x hx => ⟨a.bit x, b.bit x, ?_, ?_, ?_⟩⟩
  · exact ha.bit?_eq hx
  · exact hb.bit?_eq (hvars ▸ hx)
  · rw [(ha.combine hb.toSized hvars op).bit?_eq hx, hbit]

theorem Packed.pointwise_and : Pointwise .and Bool.and a b :=
  ha.pointwise hb hvars (ha.bit_and hb.toSized hvars)

theorem Packed.pointwise_or : Pointwise .or Bool.or a b :=
  ha.pointwise hb hvars (ha.bit_or hb.toSized hvars)

theorem Packed.pointwise_xor : Pointwise .xor Bool.xor a b :=
  ha.pointwise hb hvars (ha.bit_xor hb.toSized hvars)

theorem Packed.eq_iff_bit? : a = b ↔ ∀ x < 2 ^ a.numVars, a.bit? x = b.bit? x := by
  rw [ha.eq_iff hb hvars]
  refine forall₂_congr fun x hx => ?_
  rw [ha.bit?_eq hx, hb.bit?_eq (hvars ▸ hx), Option.some.injEq]

end Operators

theorem Packed.complement_bit? {t : TruthTable} (h : t.Packed) {x : Nat}
    (hx : x < 2 ^ t.numVars) : t.complement.bit? x = some (!t.bit x) := by
  rw [h.complement.bit?_eq hx, h.bit_complement, decide_eq_true hx, Bool.true_and]

theorem Built.words_hold_values {a b : TruthTable} (ha : a.Built) (hb : b.Built) :
    (a.numVars ≤ 20 ∧ a.words.size = (2 ^ a.numVars + 63) / 64 ∧
      ∀ (w : Nat) (hw : w < a.words.size) (i : Nat), i < 64 → 2 ^ a.numVars ≤ 64 * w + i →
        a.words[w].toNat.testBit i = false) ∧
    (∃ t, a.complement? = some t ∧ t.numVars = a.numVars ∧
      ∀ x < 2 ^ a.numVars, ∃ p, a.bit? x = some p ∧ t.bit? x = some !p) ∧
    (a.numVars = b.numVars →
      Pointwise .and Bool.and a b ∧ Pointwise .or Bool.or a b ∧ Pointwise .xor Bool.xor a b ∧
      (a = b ↔ ∀ x < 2 ^ a.numVars, a.bit? x = b.bit? x)) ∧
    a.countOnes = (List.range (2 ^ a.numVars)).countP (fun x => a.bit? x == some true) ∧
    (a.isConst0 = true ↔ ∀ x < 2 ^ a.numVars, a.bit? x = some false) := by
  have hpa := ha.packed
  have hpb := hb.packed
  have hunused := fun w hw i hi hpast => hpa.unused_word (w := w) (i := i) hw hi hpast
  refine ⟨⟨hpa.arity, hpa.words, hunused⟩, ?_, ?_, ?_, ?_⟩
  · exact ⟨a.complement, hpa.complement?_eq, rfl,
      fun x hx => ⟨a.bit x, hpa.bit?_eq hx, hpa.complement_bit? hx⟩⟩
  · intro hvars
    exact ⟨hpa.pointwise_and hpb hvars, hpa.pointwise_or hpb hvars, hpa.pointwise_xor hpb hvars,
      hpa.eq_iff_bit? hpb hvars⟩
  · rw [hpa.countOnes_eq]
    refine List.countP_congr fun x hx => ?_
    rw [hpa.bit?_eq (List.mem_range.mp hx)]
    cases a.bit x <;> decide
  · rw [hpa.isConst0_iff]
    refine forall₂_congr fun x hx => ?_
    rw [hpa.bit?_eq hx, Option.some.injEq]

theorem Built.words_hold_values_of_two_variables :
    Built ⟨2, #[5]⟩ ∧ Built ⟨2, #[12]⟩ ∧
    (∀ i < 64, 4 ≤ i → (5 : UInt64).toNat.testBit i = false) ∧
    Pointwise .xor Bool.xor ⟨2, #[5]⟩ ⟨2, #[12]⟩ ∧
    (List.range 4).countP (fun x => bit? ⟨2, #[5]⟩ x == some true) = 2 := by
  have hfirst : TruthTable.nthVar 2 0 = .ok ⟨2, #[10]⟩ := by decide +kernel
  have hsecond : TruthTable.nthVar 2 1 = .ok ⟨2, #[12]⟩ := by decide +kernel
  have ha : Built ⟨2, #[5]⟩ := (Built.nthVar hfirst).complement (by decide +kernel)
  have hb : Built ⟨2, #[12]⟩ := .nthVar hsecond
  obtain ⟨⟨_, _, hunused⟩, _, hoperators, hcount, _⟩ := ha.words_hold_values hb
  refine ⟨ha, hb, fun i hi hpast => hunused 0 (by decide) i hi (by simpa using hpast),
    (hoperators rfl).2.2.1, ?_⟩
  exact hcount.symm.trans (by decide)

end ReversibleSynthesis.TruthTable
