import Mathlib.Data.List.DropRight
import Mathlib.Data.Nat.Digits.Defs
import ReversibleSynthesis.Proofs.Except
import ReversibleSynthesis.Proofs.TruthTable

namespace ReversibleSynthesis

theorem utf8ByteSize_eq_length {text : String} (h : ∀ c ∈ text.toList, c.toNat < 128) :
    text.utf8ByteSize = text.length := by
  obtain ⟨cs, rfl⟩ : ∃ cs, text = String.ofList cs := ⟨text.toList, (String.ofList_toList).symm⟩
  rw [String.toList_ofList] at h
  rw [String.length_ofList]
  induction cs with
  | nil => rfl
  | cons c cs ih =>
    obtain ⟨hc, hcs⟩ := List.forall_mem_cons.mp h
    have hone : c.utf8Size = 1 :=
      Char.utf8Size_eq_one_iff.mpr (UInt32.le_iff_toNat_le.mpr (Nat.le_of_lt_succ hc))
    rw [String.ofList_cons, String.utf8ByteSize_append, String.utf8ByteSize_singleton, ih hcs, hone,
      List.length_cons, Nat.add_comm]

namespace TruthTable

section Bits

variable {n : Nat} {bits : List Bool} {t : TruthTable}

theorem length_bits (t : TruthTable) : t.bits.length = 2 ^ t.numVars := by
  rw [bits, List.length_map, List.length_range, numBits, Nat.pow_eq]

theorem bits_of_ofBits (h : ofBits n bits = .ok t) : t.numVars = n ∧ t.bits = bits := by
  obtain ⟨_, hlen, rfl⟩ := ofBits_eq_ok_iff.mp h
  refine ⟨rfl, List.ext_getElem ((length_bits _).trans hlen.symm) fun x _ hx => ?_⟩
  have hlt : x < 2 ^ n := hlen ▸ hx
  simp [TruthTable.bits, bit_tabulate _ hlt, hx]

theorem Packed.ofBits_bits (h : t.Packed) : ofBits t.numVars t.bits = .ok t := by
  refine ofBits_eq_ok_iff.mpr ⟨h.arity, length_bits t, ?_⟩
  refine h.eq_of_bit_eq (packed_tabulate _ h.arity) rfl fun x hx => ?_
  rw [bit_tabulate _ hx]
  simp [TruthTable.bits, numBits, hx]

end Bits

section Binary

variable {bits : List Bool} {text : String} {t : TruthTable}

def bitChar (b : Bool) : Char := if b then '1' else '0'

def binaryText (bits : List Bool) : String := String.ofList (bits.reverse.map bitChar)

theorem toBinary_eq (t : TruthTable) : t.toBinary = binaryText t.bits := rfl

theorem bitOfChar?_eq_some_iff {c : Char} {b : Bool} : bitOfChar? c = some b ↔ c = bitChar b := by
  unfold bitOfChar?
  split
  · cases b <;> simp [bitChar]
  · cases b <;> simp [bitChar]
  · next hzero hone =>
    cases b with
    | false => simpa [bitChar] using hzero
    | true => simpa [bitChar] using hone

theorem mapM_bitOfChar?_eq_some_iff {cs : List Char} :
    cs.mapM bitOfChar? = some bits ↔ cs = bits.map bitChar := by
  simp only [mapM_eq_some_iff, bitOfChar?_eq_some_iff]
  rw [← List.forall₂_map_right_iff, List.forall₂_eq_eq_eq]

theorem exists_eq_map_bitChar_iff {cs : List Char} :
    (∃ bits : List Bool, cs = bits.map bitChar) ↔ ∀ c ∈ cs, c = '0' ∨ c = '1' := by
  constructor
  · rintro ⟨bits, rfl⟩ c hc
    obtain ⟨b, _, rfl⟩ := List.mem_map.mp hc
    cases b with
    | false => exact .inl rfl
    | true => exact .inr rfl
  · intro h
    have hchar : ∀ c ∈ cs, bitChar (c == '1') = c := by
      intro c hc
      rcases h c hc with rfl | rfl <;> rfl
    refine ⟨cs.map (· == '1'), ?_⟩
    rw [List.map_map]
    exact ((List.map_congr_left hchar).trans (List.map_id' cs)).symm

theorem length_eq_of_bits (h : text.toList = bits.map bitChar) : text.length = bits.length := by
  rw [← String.length_toList, h, List.length_map]

theorem utf8ByteSize_eq_of_bits (h : text.toList = bits.map bitChar) :
    text.utf8ByteSize = bits.length := by
  rw [← length_eq_of_bits h]
  refine utf8ByteSize_eq_length fun c hc => ?_
  rcases exists_eq_map_bitChar_iff.mp ⟨bits, h⟩ c hc with rfl | rfl <;> decide

theorem eq_binaryText_iff : text = binaryText bits ↔ text.toList = bits.reverse.map bitChar := by
  rw [binaryText, ← String.toList_inj, String.toList_ofList]

theorem exists_eq_binaryText_iff :
    (∃ bits, text = binaryText bits) ↔ ∀ c ∈ text.toList, c = '0' ∨ c = '1' := by
  rw [← exists_eq_map_bitChar_iff]
  simp only [eq_binaryText_iff]
  exact ⟨fun ⟨bits, h⟩ => ⟨bits.reverse, h⟩, fun ⟨bits, h⟩ => ⟨bits.reverse, by simpa using h⟩⟩

theorem length_binaryText (bits : List Bool) : (binaryText bits).length = bits.length := by
  rw [length_eq_of_bits (eq_binaryText_iff.mp rfl), List.length_reverse]

theorem ofBinary_binaryText {n : Nat} (hlen : bits.length = 2 ^ n) :
    ofBinary (binaryText bits) = ofBits n bits := by
  have hsize : powerOfTwoLog? (binaryText bits).utf8ByteSize = some n := by
    rw [powerOfTwoLog?_eq_some_iff, utf8ByteSize_eq_of_bits (eq_binaryText_iff.mp rfl),
      List.length_reverse, hlen]
  have hbits : (binaryText bits).toList.reverse.mapM bitOfChar? = some bits := by
    rw [mapM_bitOfChar?_eq_some_iff, eq_binaryText_iff.mp rfl, List.map_reverse, List.reverse_reverse]
  rw [ofBinary, hsize, hbits]

theorem ofBinary_eq_ok_iff :
    ofBinary text = .ok t ↔ ∃ bits, text = binaryText bits ∧ ofBits t.numVars bits = .ok t := by
  constructor
  · intro h
    unfold ofBinary at h
    split at h
    · cases h
    · split at h
      · cases h
      · next bits hbits =>
        rw [mapM_bitOfChar?_eq_some_iff, List.reverse_eq_iff, ← List.map_reverse] at hbits
        exact ⟨bits, eq_binaryText_iff.mpr hbits, by rwa [(bits_of_ofBits h).1]⟩
  · rintro ⟨bits, rfl, h⟩
    rw [ofBinary_binaryText (ofBits_eq_ok_iff.mp h).2.1, h]

theorem exists_ofBinary_iff :
    (∃ t, ofBinary text = .ok t) ↔
      (∀ c ∈ text.toList, c = '0' ∨ c = '1') ∧ ∃ n ≤ maxVars, text.length = 2 ^ n := by
  rw [← exists_eq_binaryText_iff]
  constructor
  · rintro ⟨t, h⟩
    obtain ⟨bits, rfl, hbits⟩ := ofBinary_eq_ok_iff.mp h
    obtain ⟨hn, hlen, _⟩ := ofBits_eq_ok_iff.mp hbits
    exact ⟨⟨bits, rfl⟩, t.numVars, hn, (length_binaryText bits).trans hlen⟩
  · rintro ⟨⟨bits, rfl⟩, n, hn, hlen⟩
    rw [length_binaryText] at hlen
    exact ⟨_, (ofBinary_binaryText hlen).trans (ofBits_eq_ok_iff.mpr ⟨hn, hlen, rfl⟩)⟩

theorem toBinary_of_ofBinary (h : ofBinary text = .ok t) : t.toBinary = text := by
  obtain ⟨bits, rfl, hbits⟩ := ofBinary_eq_ok_iff.mp h
  rw [toBinary_eq, (bits_of_ofBits hbits).2]

theorem Packed.ofBinary_toBinary (h : t.Packed) : ofBinary t.toBinary = .ok t :=
  ofBinary_eq_ok_iff.mpr ⟨t.bits, rfl, h.ofBits_bits⟩

end Binary

section Hexadecimal

variable {n : Nat} {text : String}

def hexDigits : List Char :=
  ['0', '1', '2', '3', '4', '5', '6', '7', '8', '9', 'a', 'b', 'c', 'd', 'e', 'f']

def IsHexDigit (c : Char) : Prop := c.toLower ∈ hexDigits

instance (c : Char) : Decidable (IsHexDigit c) := inferInstanceAs (Decidable (c.toLower ∈ hexDigits))

def hexDigitValue (c : Char) : Nat := hexDigits.idxOf c.toLower

def hexNumber (text : String) : Nat := Nat.ofDigits 16 (text.toList.reverse.map hexDigitValue)

def fourBits (c : Char) : List Char :=
  [8, 4, 2, 1].map fun place => if hexDigitValue c / place % 2 = 1 then '1' else '0'

def fourBitExpansion (text : String) : List Char := text.toList.flatMap fourBits

theorem hexDigitValue_lt {c : Char} (h : IsHexDigit c) : hexDigitValue c < 16 :=
  List.idxOf_lt_length_of_mem h

theorem toNat_lt_of_isHexDigit {c : Char} (h : IsHexDigit c) : c.toNat < 128 := by
  have hdigits : hexDigits.all (fun d => decide (d.toNat < 128)) = true := by decide
  by_contra hge
  have hlower : c.toLower = c := by
    refine dif_neg fun hupper => hge ?_
    have hle : c.toNat ≤ 'Z'.toNat := UInt32.le_iff_toNat_le.mp hupper.2
    exact Nat.lt_of_le_of_lt hle (by decide)
  rw [IsHexDigit, hlower] at h
  exact hge (of_decide_eq_true (List.all_eq_true.mp hdigits c h))

theorem hexValue?_of_ascii : ∀ k < 128, hexValue? (Char.ofNat k) =
    if IsHexDigit (Char.ofNat k) then some (hexDigitValue (Char.ofNat k)) else none := by
  decide +kernel

theorem hexValue?_eq (c : Char) :
    hexValue? c = if IsHexDigit c then some (hexDigitValue c) else none := by
  rcases Nat.lt_or_ge c.toNat 128 with hlt | hge
  · rw [← Char.ofNat_toNat c]
    exact hexValue?_of_ascii c.toNat hlt
  · have hpast : ∀ d : Char, d.toNat < 128 → ¬ c ≤ d := fun d hd hle =>
      absurd (UInt32.le_iff_toNat_le.mp hle) (Nat.not_le.mpr (Nat.lt_of_lt_of_le hd hge))
    have hnone : ¬ IsHexDigit c := fun h => Nat.not_lt.mpr hge (toNat_lt_of_isHexDigit h)
    rw [hexValue?, if_neg (fun h => hpast '9' (by decide) h.2),
      if_neg (fun h => hpast 'f' (by decide) h.2), if_neg (fun h => hpast 'F' (by decide) h.2),
      if_neg hnone]

theorem hexValue?_eq_some_iff {c : Char} {d : Nat} :
    hexValue? c = some d ↔ IsHexDigit c ∧ hexDigitValue c = d := by
  rw [hexValue?_eq]
  split
  · next h => simp [h]
  · next h => simp [h]

theorem mapM_hexValue?_eq_some_iff {cs : List Char} {digits : List Nat} :
    cs.mapM hexValue? = some digits ↔
      (∀ c ∈ cs, IsHexDigit c) ∧ cs.map hexDigitValue = digits := by
  simp only [mapM_eq_some_iff, hexValue?_eq_some_iff, List.forall₂_and_left]
  rw [← List.forall₂_map_left_iff, List.forall₂_eq_eq_eq]

def hexBits (text : String) : List Bool := (text.toList.reverse.map hexDigitValue).flatMap nibble

theorem length_hexBits (text : String) : (hexBits text).length = 4 * text.length := by
  simp [hexBits, nibble, List.length_flatMap, Function.comp_def, Nat.mul_comm, String.length_toList]

theorem fourBits_eq (c : Char) : fourBits c = (nibble (hexDigitValue c)).reverse.map bitChar := by
  simp [fourBits, nibble, bitChar, List.range_succ, Nat.testBit_eq_decide_div_mod_eq]

theorem fourBitExpansion_eq (text : String) :
    fourBitExpansion text = (hexBits text).reverse.map bitChar := by
  rw [fourBitExpansion, hexBits, List.reverse_flatMap, List.map_flatMap, List.map_reverse,
    List.reverse_reverse, List.flatMap_map]
  exact List.flatMap_congr fun c _ => fourBits_eq c

theorem rtake_fourBitExpansion (text : String) (k : Nat) :
    String.ofList ((fourBitExpansion text).rtake k) = binaryText ((hexBits text).take k) := by
  rw [binaryText, fourBitExpansion_eq, List.rtake_eq_reverse_take_reverse, ← List.map_reverse,
    List.reverse_reverse, ← List.map_take, List.map_reverse]

theorem ofHex_eq_ok_iff {t : TruthTable} :
    ofHex n text = .ok t ↔ text.length = (2 ^ n + 3) / 4 ∧ (∀ c ∈ text.toList, IsHexDigit c) ∧
      (∀ b ∈ (hexBits text).drop (2 ^ n), b = false) ∧
      ofBits n ((hexBits text).take (2 ^ n)) = .ok t := by
  have hsize : (∀ c ∈ text.toList, IsHexDigit c) → text.utf8ByteSize = text.length := fun h =>
    utf8ByteSize_eq_length fun c hc => toNat_lt_of_isHexDigit (h c hc)
  constructor
  · intro h
    obtain ⟨_, h⟩ := checkArity_bind_eq_ok h
    dsimp only at h
    split at h
    · cases h
    · next hlen =>
      split at h
      · cases h
      · next digits hmap =>
        obtain ⟨hdigits, rfl⟩ := mapM_hexValue?_eq_some_iff.mp hmap
        simp only [List.mem_reverse] at hdigits
        split at h
        · cases h
        · next hany =>
          refine ⟨?_, hdigits, by simpa [hexBits] using hany, h⟩
          rw [← hsize hdigits]
          exact not_not.mp hlen
  · rintro ⟨hlen, hdigits, hunused, h⟩
    have hn := (ofBits_eq_ok_iff.mp h).1
    have hmap : text.toList.reverse.mapM hexValue? = some (text.toList.reverse.map hexDigitValue) :=
      mapM_hexValue?_eq_some_iff.mpr ⟨by simpa using hdigits, rfl⟩
    have hany : ¬ ((hexBits text).drop (2 ^ n)).any id = true := by simpa using hunused
    rw [ofHex, checkArity, if_pos hn, hsize hdigits, hmap, hlen]
    simp only [bind, Except.bind, Nat.pow_eq, ne_eq, not_true, if_false]
    exact (if_neg hany).trans h

theorem digitCount_eq (n : Nat) : (2 ^ n + 3) / 4 = max 1 (2 ^ n / 4) := by
  match n with
  | 0 => rfl
  | 1 => rfl
  | n + 2 =>
    have hpos := Nat.two_pow_pos n
    rw [Nat.pow_add]
    omega

theorem unused_nibble_iff : ∀ n < 2, ∀ d < 16,
    (∀ b ∈ (nibble d).drop (2 ^ n), b = false) ↔ d < 2 ^ 2 ^ n := by
  decide

theorem unused_hexBits_iff (hlen : text.length = (2 ^ n + 3) / 4)
    (hdigits : ∀ c ∈ text.toList, IsHexDigit c) :
    (∀ b ∈ (hexBits text).drop (2 ^ n), b = false) ↔ (n < 2 → hexNumber text < 2 ^ 2 ^ n) := by
  rcases Nat.lt_or_ge n 2 with hn | hn
  · have hone : text.toList.length = 1 := by
      rw [String.length_toList, hlen]
      obtain rfl | rfl : n = 0 ∨ n = 1 := by omega
      · rfl
      · rfl
    obtain ⟨c, hc⟩ := List.length_eq_one_iff.mp hone
    have hbits : hexBits text = nibble (hexDigitValue c) := by simp [hexBits, hc]
    have hnumber : hexNumber text = hexDigitValue c := by simp [hexNumber, hc]
    have hlt : hexDigitValue c < 16 := hexDigitValue_lt (hdigits c (by simp [hc]))
    rw [hbits, hnumber, unused_nibble_iff n hn _ hlt]
    exact ⟨fun h _ => h, fun h => h hn⟩
  · have hfull : (hexBits text).length ≤ 2 ^ n := by
      obtain ⟨k, rfl⟩ := Nat.exists_eq_add_of_le hn
      rw [length_hexBits, hlen, Nat.pow_add]
      omega
    rw [List.drop_eq_nil_of_le hfull]
    simp [Nat.not_lt.mpr hn]

theorem length_take_hexBits (hlen : text.length = (2 ^ n + 3) / 4) :
    ((hexBits text).take (2 ^ n)).length = 2 ^ n := by
  rw [List.length_take, length_hexBits, hlen]
  omega

theorem exists_ofHex_iff (hn : n ≤ maxVars) :
    (∃ t, ofHex n text = .ok t) ↔ text.length = max 1 (2 ^ n / 4) ∧
      (∀ c ∈ text.toList, IsHexDigit c) ∧ (n < 2 → hexNumber text < 2 ^ 2 ^ n) := by
  rw [← digitCount_eq]
  constructor
  · rintro ⟨t, h⟩
    obtain ⟨hlen, hdigits, hunused, _⟩ := ofHex_eq_ok_iff.mp h
    exact ⟨hlen, hdigits, (unused_hexBits_iff hlen hdigits).mp hunused⟩
  · rintro ⟨hlen, hdigits, hvalue⟩
    have hbits := ofBits_eq_ok_iff.mpr ⟨hn, length_take_hexBits hlen, rfl⟩
    exact ⟨_, ofHex_eq_ok_iff.mpr ⟨hlen, hdigits, (unused_hexBits_iff hlen hdigits).mpr hvalue, hbits⟩⟩

theorem ofBinary_of_ofHex {t : TruthTable} (h : ofHex n text = .ok t) :
    ofBinary (String.ofList ((fourBitExpansion text).rtake (2 ^ n))) = .ok t := by
  obtain ⟨hlen, _, _, hbits⟩ := ofHex_eq_ok_iff.mp h
  rw [rtake_fourBitExpansion, ofBinary_binaryText (length_take_hexBits hlen), hbits]

end Hexadecimal

theorem text_formats_agree :
    (∀ text : String, (∃ t, ofBinary text = .ok t) ↔
      (∀ c ∈ text.toList, c = '0' ∨ c = '1') ∧ ∃ n ≤ 20, text.length = 2 ^ n) ∧
    (∀ (text : String) (t : TruthTable), ofBinary text = .ok t → t.toBinary = text) ∧
    (∀ t : TruthTable, t.Built → ofBinary t.toBinary = .ok t) ∧
    ∀ n ≤ 20, ∀ text : String,
      ((∃ t, ofHex n text = .ok t) ↔ text.length = max 1 (2 ^ n / 4) ∧
        (∀ c ∈ text.toList, IsHexDigit c) ∧ (n < 2 → hexNumber text < 2 ^ 2 ^ n)) ∧
      ∀ t, ofHex n text = .ok t →
        ofBinary (String.ofList ((fourBitExpansion text).rtake (2 ^ n))) = .ok t :=
  ⟨fun _ => exists_ofBinary_iff, fun _ _ => toBinary_of_ofBinary,
    fun _ h => h.packed.ofBinary_toBinary,
    fun _ hn _ => ⟨exists_ofHex_iff hn, fun _ => ofBinary_of_ofHex⟩⟩

theorem text_formats_agree_at_capitals :
    (∃ t, ofHex 3 "E8" = .ok t ∧ ofBinary "11101000" = .ok t) ∧
    (∃ t, ofHex 1 "3" = .ok t ∧ ofBinary "11" = .ok t) ∧ ¬ (∃ t, ofHex 1 "4" = .ok t) := by
  obtain ⟨_, _, _, hhex⟩ := text_formats_agree
  have hdigits : ∀ text : String, text.toList.all (fun c => decide (IsHexDigit c)) = true →
      ∀ c ∈ text.toList, IsHexDigit c := fun text h c hc =>
    of_decide_eq_true (List.all_eq_true.mp h c hc)
  refine ⟨?_, ?_, fun h => ?_⟩
  · obtain ⟨hiff, hread⟩ := hhex 3 (by decide) "E8"
    obtain ⟨t, ht⟩ := hiff.mpr ⟨rfl, hdigits _ (by decide +kernel), by decide⟩
    exact ⟨t, ht, hread t ht⟩
  · obtain ⟨hiff, hread⟩ := hhex 1 (by decide) "3"
    obtain ⟨t, ht⟩ := hiff.mpr ⟨rfl, hdigits _ (by decide +kernel), fun _ => by decide +kernel⟩
    exact ⟨t, ht, hread t ht⟩
  · have hvalue := ((hhex 1 (by decide) "4").1.mp h).2.2 (by decide)
    exact absurd hvalue (by decide +kernel)

end TruthTable

end ReversibleSynthesis
