import ReversibleSynthesis.ParityTerms
import ReversibleSynthesis.Proofs.TruthTable.Text

namespace ReversibleSynthesis

namespace ParityTerms

variable {α : Type} [Add α]

inductive Built : ParityTerms α → Prop
  | empty : Built empty
  | withNumVars {n : Nat} {ts : ParityTerms α} (h : withNumVars n = .ok ts) : Built ts
  | addBitString {ts ts' : ParityTerms α} (hb : Built ts) (text : String) (angle : α)
      (h : ts.addBitString text angle = .ok ts') : Built ts'
  | addTerm {ts ts' : ParityTerms α} (hb : Built ts) (mask : Nat) (angle : α)
      (h : ts.addTerm mask angle = .ok ts') : Built ts'

def masks (ts : ParityTerms α) : List Nat := ts.terms.map ParityTerm.mask

def Indexed (ts : ParityTerms α) : Prop :=
  ∀ mask pos : Nat, ts.index.lookup mask = some pos ↔ ts.masks[pos]? = some mask

def Narrow (ts : ParityTerms α) : Prop :=
  (ts.numVars? = none → ts.terms = []) ∧ ∀ t ∈ ts.terms, t.mask < 2 ^ ts.numVars

section Insert

variable (ts : ParityTerms α) (mask : Nat) (angle : α)

theorem insert_of_lookup {pos : Nat} (h : ts.index.lookup mask = some pos) :
    ts.insert mask angle =
      { ts with terms := ts.terms.modify pos fun t => { t with angle := t.angle + angle } } := by
  rw [insert, h]

theorem insert_of_lookup_none (h : ts.index.lookup mask = none) :
    ts.insert mask angle =
      { ts with
        terms := ts.terms ++ [⟨mask, angle⟩]
        index := (mask, ts.terms.length) :: ts.index } := by
  rw [insert, h]

theorem numVars?_insert : (ts.insert mask angle).numVars? = ts.numVars? := by
  rw [insert]
  split
  · rfl
  · rfl

theorem masks_insert_of_lookup {pos : Nat} (h : ts.index.lookup mask = some pos) :
    (ts.insert mask angle).masks = ts.masks := by
  rw [insert_of_lookup ts mask angle h, masks, masks]
  refine List.ext_getElem? fun i => ?_
  rw [List.getElem?_map, List.getElem?_map, List.getElem?_modify]
  cases ts.terms[i]? with
  | none => rfl
  | some t => by_cases hi : pos = i <;> simp [hi]

theorem masks_insert_of_lookup_none (h : ts.index.lookup mask = none) :
    (ts.insert mask angle).masks = ts.masks ++ [mask] := by
  rw [insert_of_lookup_none ts mask angle h, masks, masks, List.map_append, List.map_singleton]

theorem lookup_insert_of_lookup_none (h : ts.index.lookup mask = none) (m : Nat) :
    (ts.insert mask angle).index.lookup m =
      if m = mask then some ts.masks.length else ts.index.lookup m := by
  rw [insert_of_lookup_none ts mask angle h, List.lookup_cons, masks, List.length_map]
  by_cases hm : m = mask
  · rw [if_pos hm, hm, beq_self_eq_true]
  · rw [if_neg hm, beq_eq_false_iff_ne.mpr hm]

theorem mask_of_mem_insert {m : Nat} (h : m ∈ (ts.insert mask angle).masks) :
    m = mask ∨ m ∈ ts.masks := by
  cases hlookup : ts.index.lookup mask with
  | some pos =>
    rw [masks_insert_of_lookup ts mask angle hlookup] at h
    exact .inr h
  | none =>
    rw [masks_insert_of_lookup_none ts mask angle hlookup] at h
    rcases List.mem_append.mp h with hm | hm
    · exact .inr hm
    · exact .inl (List.mem_singleton.mp hm)

end Insert

namespace Indexed

omit [Add α] in
theorem lookup_eq_none_iff {ts : ParityTerms α} (h : ts.Indexed) (mask : Nat) :
    ts.index.lookup mask = none ↔ mask ∉ ts.masks := by
  rw [List.mem_iff_getElem?, not_exists]
  constructor
  · intro hnone pos hpos
    rw [(h mask pos).mpr hpos] at hnone
    cases hnone
  · intro hmasks
    cases hlookup : ts.index.lookup mask with
    | none => rfl
    | some pos => exact absurd ((h mask pos).mp hlookup) (hmasks pos)

theorem insert {ts : ParityTerms α} (h : ts.Indexed) (mask : Nat) (angle : α) :
    (ts.insert mask angle).Indexed := by
  cases hlookup : ts.index.lookup mask with
  | some pos =>
    intro m i
    rw [masks_insert_of_lookup ts mask angle hlookup, ← h m i,
      insert_of_lookup ts mask angle hlookup]
  | none =>
    intro m i
    rw [masks_insert_of_lookup_none ts mask angle hlookup,
      lookup_insert_of_lookup_none ts mask angle hlookup]
    rcases Nat.lt_trichotomy i ts.masks.length with hlt | heq | hgt
    · rw [List.getElem?_append_left hlt, ← h m i]
      split
      · next hm =>
        rw [hm, hlookup]
        simp [Nat.ne_of_gt hlt]
      · rfl
    · rw [heq, List.getElem?_concat_length]
      split
      · next hm => simp [hm]
      · next hm =>
        rw [h m, List.getElem?_eq_none (Nat.le_refl _)]
        simp [Ne.symm hm]
    · rw [List.getElem?_eq_none (by rw [List.length_append]; exact hgt)]
      split
      · simp [Nat.ne_of_lt hgt]
      · rw [h m i, List.getElem?_eq_none (Nat.le_of_lt hgt)]

end Indexed

theorem foldl_insert_of_nodup {ts : ParityTerms α} (h : ts.Indexed) {terms : List (ParityTerm α)}
    (hnodup : (ts.masks ++ terms.map ParityTerm.mask).Nodup) :
    (terms.foldl (fun ts t => ts.insert t.mask t.angle) ts).terms = ts.terms ++ terms ∧
      (terms.foldl (fun ts t => ts.insert t.mask t.angle) ts).numVars? = ts.numVars? := by
  induction terms generalizing ts with
  | nil => exact ⟨(List.append_nil _).symm, rfl⟩
  | cons t terms ih =>
    have hnew : t.mask ∉ ts.masks := fun hmem =>
      (List.nodup_append.mp hnodup).2.2 t.mask hmem t.mask List.mem_cons_self rfl
    have hlookup := (h.lookup_eq_none_iff t.mask).mpr hnew
    have hrest : ((ts.insert t.mask t.angle).masks ++ terms.map ParityTerm.mask).Nodup := by
      rw [masks_insert_of_lookup_none ts t.mask t.angle hlookup, List.append_assoc]
      exact hnodup
    obtain ⟨hterms, hnum⟩ := ih (h.insert t.mask t.angle) hrest
    refine ⟨?_, hnum.trans (numVars?_insert ts t.mask t.angle)⟩
    rw [List.foldl_cons, hterms, insert_of_lookup_none ts t.mask t.angle hlookup,
      List.append_assoc]
    rfl

theorem narrow_insert {ts : ParityTerms α} {mask width : Nat} (angle : α) (hn : Narrow ts)
    (hwidth : ∀ n, ts.numVars? = some n → n ≤ width) (hmask : mask < 2 ^ width) :
    Narrow ({ ts with numVars? := some width }.insert mask angle) := by
  have hsome : ({ ts with numVars? := some width }.insert mask angle).numVars? = some width :=
    numVars?_insert _ mask angle
  refine ⟨fun hnone => ?_, fun t ht => ?_⟩
  · rw [hsome] at hnone
    cases hnone
  rw [numVars, hsome]
  rcases mask_of_mem_insert _ mask angle (List.mem_map_of_mem ht) with hm | hm
  · exact hm ▸ hmask
  · obtain ⟨t', ht', hm⟩ := List.mem_map.mp hm
    rw [← hm]
    cases hv : ts.numVars? with
    | none => exact absurd (hn.1 hv ▸ ht' : t' ∈ []) List.not_mem_nil
    | some n =>
      have hlt : t'.mask < 2 ^ n := by simpa [numVars, hv] using hn.2 t' ht'
      exact Nat.lt_of_lt_of_le hlt (Nat.pow_le_pow_right (by omega) (hwidth n hv))

omit [Add α] in
theorem eq_of_withNumVars {k : Nat} {ts : ParityTerms α} (h : withNumVars k = .ok ts) :
    k ≤ maxVars ∧ ts = ⟨some k, [], []⟩ := by
  unfold withNumVars at h
  split at h
  · next hk => exact ⟨hk, (Except.ok.inj h).symm⟩
  · cases h

theorem addBitString_eq_ok_iff {ts ts' : ParityTerms α} {text : String} {angle : α} :
    ts.addBitString text angle = .ok ts' ↔
      ∃ bits : List Bool, text.toList = bits.map TruthTable.bitChar ∧ 0 < bits.length ∧
        bits.length ≤ maxVars ∧ (∀ n, ts.numVars? = some n → n = bits.length) ∧
        ts' = { ts with numVars? := some bits.length }.insert (maskOfList bits) angle := by
  have hexpected : ∀ width, ts.numVars?.getD width = width ↔
      ∀ n, ts.numVars? = some n → n = width := by
    intro width
    cases ts.numVars? with
    | none => simp
    | some n => simp
  constructor
  · intro h
    unfold addBitString at h
    dsimp only at h
    split at h
    · cases h
    · next hpos =>
      split at h
      · cases h
      · next hmax =>
        split at h
        · cases h
        · next bits hbits =>
          have htext := TruthTable.mapM_bitOfChar?_eq_some_iff.mp hbits
          rw [TruthTable.utf8ByteSize_eq_of_bits htext] at hpos hmax h
          split at h
          · next hexp =>
            cases h
            exact ⟨bits, htext, Nat.pos_of_ne_zero hpos, Nat.not_lt.mp hmax,
              (hexpected _).mp hexp, rfl⟩
          · cases h
  · rintro ⟨bits, htext, hpos, hmax, hexp, rfl⟩
    unfold addBitString
    simp only [TruthTable.utf8ByteSize_eq_of_bits htext,
      TruthTable.mapM_bitOfChar?_eq_some_iff.mpr htext,
      if_neg (Nat.ne_of_gt hpos), if_neg (Nat.not_lt.mpr hmax), if_pos ((hexpected _).mpr hexp)]

theorem addTerm_eq_ok_iff {ts ts' : ParityTerms α} {mask : Nat} {angle : α} :
    ts.addTerm mask angle = .ok ts' ↔
      maskWidth mask ≤ ts.numVars?.getD (maskWidth mask) ∧
        ts' = { ts with numVars? := some (ts.numVars?.getD (maskWidth mask)) }.insert mask angle := by
  unfold addTerm
  dsimp only
  split
  · next hle => simp [hle, eq_comm]
  · next hlt => simp [hlt]

theorem maskWidth_le_iff {mask n : Nat} : maskWidth mask ≤ n ↔ 0 < n ∧ mask < 2 ^ n := by
  rw [maskWidth]
  constructor
  · intro h
    exact ⟨by omega, Nat.lt_of_lt_of_le Nat.lt_log2_self (Nat.pow_le_pow_right (by decide) h)⟩
  · rintro ⟨hpos, hlt⟩
    rcases Nat.eq_zero_or_pos mask with rfl | hmask
    · rw [Nat.log2_zero]
      exact hpos
    · exact (Nat.log2_lt (Nat.ne_of_gt hmask)).mpr hlt

theorem built_foldl_insert {n : Nat} {ts : ParityTerms α} (hb : ts.Built) (hn : ts.numVars? = some n)
    {terms : List (ParityTerm α)} (hterms : ∀ t ∈ terms, t.mask ≠ 0 ∧ t.mask < 2 ^ n) :
    (terms.foldl (fun ts t => ts.insert t.mask t.angle) ts).Built := by
  induction terms generalizing ts with
  | nil => exact hb
  | cons t terms ih =>
    obtain ⟨⟨hne, hlt⟩, hterms⟩ := List.forall_mem_cons.mp hterms
    have hpos : 0 < n := Nat.pos_of_ne_zero fun hzero => by
      rw [hzero, Nat.pow_zero] at hlt
      omega
    have hok : ts.addTerm t.mask t.angle = .ok (ts.insert t.mask t.angle) := by
      rw [addTerm_eq_ok_iff, hn]
      exact ⟨maskWidth_le_iff.mpr ⟨hpos, hlt⟩, by cases ts; cases hn; rfl⟩
    exact ih (hb.addTerm t.mask t.angle hok) ((numVars?_insert ts t.mask t.angle).trans hn) hterms

theorem narrow_addBitString {ts ts' : ParityTerms α} {text : String} {angle : α} (hn : Narrow ts)
    (h : ts.addBitString text angle = .ok ts') : Narrow ts' := by
  obtain ⟨bits, _, _, _, hexp, rfl⟩ := addBitString_eq_ok_iff.mp h
  exact narrow_insert angle hn (fun n hv => Nat.le_of_eq (hexp n hv)) (maskOfList_lt bits)

theorem narrow_addTerm {ts ts' : ParityTerms α} {mask : Nat} {angle : α} (hn : Narrow ts)
    (h : ts.addTerm mask angle = .ok ts') : Narrow ts' := by
  obtain ⟨hle, rfl⟩ := addTerm_eq_ok_iff.mp h
  refine narrow_insert angle hn (fun n hv => ?_) ?_
  · rw [hv]
    exact Nat.le_refl n
  · exact (maskWidth_le_iff.mp hle).2

theorem Built.narrow {ts : ParityTerms α} (h : Built ts) : Narrow ts := by
  induction h with
  | empty => exact ⟨fun _ => rfl, nofun⟩
  | withNumVars h =>
    obtain ⟨_, rfl⟩ := eq_of_withNumVars h
    exact ⟨fun _ => rfl, nofun⟩
  | addBitString _ _ _ h ih => exact narrow_addBitString ih h
  | addTerm _ _ _ h ih => exact narrow_addTerm ih h

end ParityTerms

end ReversibleSynthesis
