import ReversibleSynthesis.Proofs.Bits
import ReversibleSynthesis.TruthTable.Text

namespace ReversibleSynthesis.TruthTable

theorem bit_tabulate_eq (n : Nat) (f : Nat → Bool) (x : Nat) :
    (tabulate n f).bit x = (decide (x < 2 ^ n) && f x) := by
  have hbits : ∀ g : Nat → Bool, (UInt64.ofNat (packBits g 64)).toNat = packBits g 64 :=
    fun g => UInt64.toNat_ofNat_of_lt' (packBits_lt g 64)
  have hlow : x % 64 < 64 := Nat.mod_lt _ (by decide)
  have hmod : 64 * (x / 64) + x % 64 = x := Nat.div_add_mod x 64
  rcases Nat.lt_or_ge (x / 64) (wordCount n) with hword | hword
  · simp only [bit, tabulate, Array.getD_eq_getD_getElem?, Array.getElem?_ofFn, hword, dif_pos,
      Option.getD_some, hbits, testBit_packBits, hlow, hmod, Nat.pow_eq, decide_true, Bool.true_and]
  · have hx : ¬ x < 2 ^ n := by
      rw [wordCount, Nat.pow_eq] at hword
      omega
    simp [bit, tabulate, Nat.not_lt.mpr hword, hx]

theorem bit_tabulate {n : Nat} (f : Nat → Bool) {x : Nat} (hx : x < 2 ^ n) :
    (tabulate n f).bit x = f x := by
  rw [bit_tabulate_eq, decide_eq_true hx, Bool.true_and]

theorem bit_of_isConst0 {t : TruthTable} (h : t.isConst0 = true) (x : Nat) : t.bit x = false := by
  have hword : t.words.getD (x / 64) 0 = 0 := by
    rw [Array.getD]
    split
    · next hlt =>
      rw [isConst0, Array.all_eq_true] at h
      exact beq_iff_eq.mp (h _ hlt)
    · rfl
  rw [bit, hword]
  exact Nat.zero_testBit _

inductive Built : TruthTable → Prop
  | const0 {n : Nat} {t : TruthTable} (h : TruthTable.const0 n = .ok t) : Built t
  | ofFn {n : Nat} {f : Nat → Bool} {t : TruthTable} (h : TruthTable.ofFn n f = .ok t) : Built t
  | ofBits {n : Nat} {bits : List Bool} {t : TruthTable} (h : TruthTable.ofBits n bits = .ok t) :
      Built t
  | nthVar {n var : Nat} {t : TruthTable} (h : TruthTable.nthVar n var = .ok t) : Built t
  | ofBinary {text : String} {t : TruthTable} (h : TruthTable.ofBinary text = .ok t) : Built t
  | ofHex {n : Nat} {text : String} {t : TruthTable} (h : TruthTable.ofHex n text = .ok t) : Built t
  | and {a b t : TruthTable} (ha : Built a) (hb : Built b) (h : combine? .and a b = some t) : Built t
  | or {a b t : TruthTable} (ha : Built a) (hb : Built b) (h : combine? .or a b = some t) : Built t
  | xor {a b t : TruthTable} (ha : Built a) (hb : Built b) (h : combine? .xor a b = some t) : Built t
  | complement {a t : TruthTable} (ha : Built a) (h : a.complement? = some t) : Built t

structure Sized (t : TruthTable) : Prop where
  arity : t.numVars ≤ maxVars
  words : t.words.size = wordCount t.numVars

structure Packed (t : TruthTable) : Prop extends Sized t where
  unused : ∀ x, 2 ^ t.numVars ≤ x → t.bit x = false

theorem checkArity_bind_eq_ok {β : Type} {n : Nat} {k : Unit → Except InputError β} {r : β}
    (h : (checkArity n >>= k) = .ok r) : n ≤ maxVars ∧ k () = .ok r := by
  unfold checkArity at h
  split at h
  · next hle => exact ⟨hle, h⟩
  · cases h

theorem packed_tabulate {n : Nat} (f : Nat → Bool) (hn : n ≤ maxVars) : (tabulate n f).Packed := by
  refine ⟨⟨hn, by simp [tabulate]⟩, fun x hx => ?_⟩
  have hlt : ¬ x < 2 ^ n := Nat.not_lt.mpr hx
  rw [bit_tabulate_eq, decide_eq_false hlt, Bool.false_and]

theorem packed_const0 {n : Nat} {t : TruthTable} (h : const0 n = .ok t) : t.Packed := by
  obtain ⟨hn, h⟩ := checkArity_bind_eq_ok h
  cases h
  refine ⟨⟨hn, Array.size_replicate⟩, fun x _ => bit_of_isConst0 ?_ x⟩
  rw [isConst0, Array.all_eq_true]
  simp

theorem packed_ofFn {n : Nat} {f : Nat → Bool} {t : TruthTable} (h : ofFn n f = .ok t) :
    t.Packed := by
  obtain ⟨hn, h⟩ := checkArity_bind_eq_ok h
  cases h
  exact packed_tabulate f hn

theorem ofBits_eq_ok_iff {n : Nat} {bits : List Bool} {t : TruthTable} :
    ofBits n bits = .ok t ↔
      n ≤ maxVars ∧ bits.length = 2 ^ n ∧ t = tabulate n fun x => bits.toArray.getD x false := by
  unfold ofBits checkArity
  rw [Nat.pow_eq]
  by_cases hn : n ≤ maxVars
  · by_cases hlen : bits.length = 2 ^ n
    · simp [hn, hlen, bind, Except.bind, pure, Except.pure, eq_comm]
    · simp [hn, hlen, bind, Except.bind]
  · simp [hn, bind, Except.bind]

theorem packed_ofBits {n : Nat} {bits : List Bool} {t : TruthTable} (h : ofBits n bits = .ok t) :
    t.Packed := by
  obtain ⟨hn, _, rfl⟩ := ofBits_eq_ok_iff.mp h
  exact packed_tabulate _ hn

theorem packed_nthVar {n var : Nat} {t : TruthTable} (h : nthVar n var = .ok t) : t.Packed := by
  unfold nthVar at h
  split at h
  · exact packed_ofFn h
  · cases h

theorem packed_ofBinary {text : String} {t : TruthTable} (h : ofBinary text = .ok t) : t.Packed := by
  unfold ofBinary at h
  split at h
  · cases h
  · split at h
    · cases h
    · exact packed_ofBits h

theorem packed_ofHex {n : Nat} {text : String} {t : TruthTable} (h : ofHex n text = .ok t) :
    t.Packed := by
  obtain ⟨_, h⟩ := checkArity_bind_eq_ok h
  dsimp only at h
  split at h
  · cases h
  · split at h
    · cases h
    · split at h
      · cases h
      · exact packed_ofBits h

section Operators

variable {a b t : TruthTable}

theorem bit_combine {op : UInt64 → UInt64 → UInt64} {f : Bool → Bool → Bool}
    (hop : ∀ (u v : UInt64) (i : Nat),
      (op u v).toNat.testBit i = f (u.toNat.testBit i) (v.toNat.testBit i))
    (hsize : a.words.size = b.words.size) (x : Nat) :
    (a.combine op b).bit x = f (a.bit x) (b.bit x) := by
  have hzero : f false false = false := by
    have h := hop 0 0 64
    rw [UInt64.toNat_zero, Nat.zero_testBit] at h
    rw [← h]
    exact Nat.testBit_lt_two_pow (op 0 0).toNat_lt
  simp only [bit, combine, Array.getD_eq_getD_getElem?, Array.getElem?_zipWith]
  rcases Nat.lt_or_ge (x / 64) a.words.size with hword | hword
  · simp [hword, hsize ▸ hword, hop]
  · simp [hword, hsize ▸ hword, hzero]

theorem Sized.combine (ha : a.Sized) (hb : b.Sized) (hvars : a.numVars = b.numVars)
    (op : UInt64 → UInt64 → UInt64) : (a.combine op b).Sized :=
  ⟨ha.arity, by simp [TruthTable.combine, ha.words, hb.words, hvars]⟩

theorem Sized.size_eq (ha : a.Sized) (hb : b.Sized) (hvars : a.numVars = b.numVars) :
    a.words.size = b.words.size := by
  rw [ha.words, hb.words, hvars]

theorem Sized.bit_and (ha : a.Sized) (hb : b.Sized) (hvars : a.numVars = b.numVars) (x : Nat) :
    (a.and b).bit x = (a.bit x && b.bit x) :=
  bit_combine (fun u v i => by rw [UInt64.toNat_and, Nat.testBit_and]) (ha.size_eq hb hvars) x

theorem Sized.bit_or (ha : a.Sized) (hb : b.Sized) (hvars : a.numVars = b.numVars) (x : Nat) :
    (a.or b).bit x = (a.bit x || b.bit x) :=
  bit_combine (fun u v i => by rw [UInt64.toNat_or, Nat.testBit_or]) (ha.size_eq hb hvars) x

theorem Sized.bit_xor (ha : a.Sized) (hb : b.Sized) (hvars : a.numVars = b.numVars) (x : Nat) :
    (a.xor b).bit x = (a.bit x ^^ b.bit x) :=
  bit_combine (fun u v i => by rw [UInt64.toNat_xor, Nat.testBit_xor]) (ha.size_eq hb hvars) x

theorem Packed.and (ha : a.Packed) (hb : b.Packed) (hvars : a.numVars = b.numVars) :
    (a.and b).Packed := by
  refine ⟨ha.combine hb.toSized hvars _, fun x hx => ?_⟩
  rw [ha.bit_and hb.toSized hvars, ha.unused x hx, Bool.false_and]

theorem Packed.or (ha : a.Packed) (hb : b.Packed) (hvars : a.numVars = b.numVars) :
    (a.or b).Packed := by
  refine ⟨ha.combine hb.toSized hvars _, fun x hx => ?_⟩
  rw [ha.bit_or hb.toSized hvars, ha.unused x hx, hb.unused x (hvars ▸ hx), Bool.false_or]

theorem Packed.xor (ha : a.Packed) (hb : b.Packed) (hvars : a.numVars = b.numVars) :
    (a.xor b).Packed := by
  refine ⟨ha.combine hb.toSized hvars _, fun x hx => ?_⟩
  rw [ha.bit_xor hb.toSized hvars, ha.unused x hx, hb.unused x (hvars ▸ hx), Bool.false_xor]

theorem Sized.complement (ht : t.Sized) : t.complement.Sized := by
  refine ⟨ht.arity, ?_⟩
  unfold TruthTable.complement
  dsimp only
  split
  · rw [Array.size_modify, Array.size_map, ht.words]
  · rw [Array.size_map, ht.words]

theorem testBit_not (u : UInt64) {i : Nat} (hi : i < 64) :
    (~~~u).toNat.testBit i = !u.toNat.testBit i := by
  have hsub : (~~~u).toNat = 2 ^ 64 - (u.toNat + 1) := by
    rw [UInt64.toNat_not]
    simp only [UInt64.size]
    omega
  rw [hsub, Nat.testBit_two_pow_sub_succ u.toNat_lt, decide_eq_true hi, Bool.true_and]

theorem testBit_usedMask {n : Nat} (hn : n < 6) (i : Nat) :
    (usedMask n).toNat.testBit i = decide (i < 2 ^ n) := by
  have hexp : 2 ^ n ≤ 2 ^ 5 := Nat.pow_le_pow_right (by decide) (by omega)
  have hlt : 2 ^ 2 ^ n - 1 < 2 ^ 64 := by
    have hle : 2 ^ 2 ^ n ≤ 2 ^ 2 ^ 5 := Nat.pow_le_pow_right (by decide) hexp
    omega
  have hmask : (usedMask n).toNat = 2 ^ 2 ^ n - 1 := UInt64.toNat_ofNat_of_lt' hlt
  rw [hmask, Nat.testBit_two_pow_sub_one]

theorem getD_words_complement {w : Nat} (hw : w < t.words.size) :
    t.complement.words.getD w 0 =
      if t.numVars < 6 ∧ w = 0 then ~~~t.words.getD w 0 &&& usedMask t.numVars
      else ~~~t.words.getD w 0 := by
  unfold TruthTable.complement
  dsimp only
  split
  · next hsmall =>
    rcases Nat.eq_zero_or_pos w with rfl | hpos
    · simp [Array.getElem_modify, hsmall, hw]
    · simp [Array.getElem_modify, hw, Nat.ne_of_gt hpos, Nat.ne_of_lt hpos]
  · next hlarge => simp [hlarge, hw]

theorem Sized.bit_complement (ht : t.Sized) (x : Nat) :
    t.complement.bit x = (decide (x < 2 ^ t.numVars) && !t.bit x) := by
  have hlow : x % 64 < 64 := Nat.mod_lt _ (by decide)
  have hwords : t.words.size = (2 ^ t.numVars + 63) / 64 := ht.words
  rcases Nat.lt_or_ge (x / 64) t.words.size with hword | hword
  · rw [bit, bit, getD_words_complement hword]
    split
    · next hmasked =>
      have hmod : x % 64 = x := by omega
      rw [UInt64.toNat_and, Nat.testBit_and, testBit_not _ hlow, testBit_usedMask hmasked.1, hmod,
        Bool.and_comm]
    · next hfull =>
      have hx : x < 2 ^ t.numVars := by
        rcases Nat.lt_or_ge t.numVars 6 with hsmall | hlarge
        · have hexp : 2 ^ t.numVars ≤ 2 ^ 5 := Nat.pow_le_pow_right (by decide) (by omega)
          omega
        · have hexp : 2 ^ t.numVars = 2 ^ 6 * 2 ^ (t.numVars - 6) := by
            rw [← Nat.pow_add, Nat.add_sub_cancel' hlarge]
          omega
      rw [testBit_not _ hlow, decide_eq_true hx, Bool.true_and]
  · have hsize : t.complement.words.size ≤ x / 64 := by
      rw [ht.complement.words]
      exact ht.words ▸ hword
    have hx : ¬ x < 2 ^ t.numVars := by omega
    rw [bit, Array.getD_eq_getD_getElem?, Array.getElem?_eq_none hsize, decide_eq_false hx]
    simp

theorem Packed.complement (ht : t.Packed) : t.complement.Packed := by
  refine ⟨ht.toSized.complement, fun x hx => ?_⟩
  have hlt : ¬ x < 2 ^ t.numVars := Nat.not_lt.mpr hx
  rw [ht.bit_complement, decide_eq_false hlt, Bool.false_and]

theorem Sized.complement?_eq (ht : t.Sized) : t.complement? = some t.complement := by
  have hwords : t.words.size = (2 ^ t.numVars + 63) / 64 := ht.words
  have hpos := Nat.two_pow_pos t.numVars
  exact if_neg (by omega)

end Operators

theorem combine?_eq_some {op : TruthTable → TruthTable → TruthTable} {a b t : TruthTable}
    (h : combine? op a b = some t) : a.numVars = b.numVars ∧ t = op a b := by
  unfold combine? at h
  split at h
  · next hvars => exact ⟨hvars, (Option.some.inj h).symm⟩
  · cases h

theorem Built.packed {t : TruthTable} (h : t.Built) : t.Packed := by
  induction h with
  | const0 h => exact packed_const0 h
  | ofFn h => exact packed_ofFn h
  | ofBits h => exact packed_ofBits h
  | nthVar h => exact packed_nthVar h
  | ofBinary h => exact packed_ofBinary h
  | ofHex h => exact packed_ofHex h
  | and _ _ h iha ihb =>
    obtain ⟨hvars, rfl⟩ := combine?_eq_some h
    exact iha.and ihb hvars
  | or _ _ h iha ihb =>
    obtain ⟨hvars, rfl⟩ := combine?_eq_some h
    exact iha.or ihb hvars
  | xor _ _ h iha ihb =>
    obtain ⟨hvars, rfl⟩ := combine?_eq_some h
    exact iha.xor ihb hvars
  | complement _ h iha =>
    unfold complement? at h
    split at h
    · cases h
    · cases h
      exact iha.complement

theorem Built.sized {t : TruthTable} (h : t.Built) : t.Sized := h.packed.toSized

theorem bit_word {t : TruthTable} {w i : Nat} (hw : w < t.words.size) (hi : i < 64) :
    t.bit (64 * w + i) = t.words[w].toNat.testBit i := by
  have hdiv : (64 * w + i) / 64 = w := by omega
  have hmod : (64 * w + i) % 64 = i := by omega
  simp [bit, hdiv, hmod, hw]

theorem Packed.eq_of_bit_eq {a b : TruthTable} (ha : a.Packed) (hb : b.Packed)
    (hvars : a.numVars = b.numVars) (h : ∀ x < 2 ^ a.numVars, a.bit x = b.bit x) : a = b := by
  have hbit : ∀ x, a.bit x = b.bit x := by
    intro x
    rcases Nat.lt_or_ge x (2 ^ a.numVars) with hx | hx
    · exact h x hx
    · rw [ha.unused x hx, hb.unused x (hvars ▸ hx)]
  have hwords : a.words = b.words := by
    refine Array.ext (ha.size_eq hb.toSized hvars) fun w hwa hwb => ?_
    refine UInt64.toNat_inj.mp (eq_of_testBit_below (w := 64) (UInt64.toNat_lt _)
      (UInt64.toNat_lt _) fun i hi => ?_)
    rw [← bit_word hwa hi, ← bit_word hwb hi]
    exact hbit _
  obtain ⟨_, _⟩ := a
  obtain ⟨_, _⟩ := b
  cases hvars
  cases hwords
  rfl

theorem Sized.bit?_eq {t : TruthTable} (h : t.Sized) {x : Nat} (hx : x < 2 ^ t.numVars) :
    t.bit? x = some (t.bit x) := by
  have hvars : t.numVars < 64 := Nat.lt_of_le_of_lt h.arity (by decide)
  have hword : x / 64 < t.words.size := by
    rw [h.words, wordCount, Nat.pow_eq]
    omega
  have hsize : t.numBits? = some (2 ^ t.numVars) := if_pos hvars
  simp [bit?, hsize, bit, hword, hx]

end ReversibleSynthesis.TruthTable
