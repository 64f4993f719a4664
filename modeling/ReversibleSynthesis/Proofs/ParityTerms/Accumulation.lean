import ReversibleSynthesis.Proofs.ParityTerms

namespace ReversibleSynthesis

theorem eraseDups_concat (ms : List Nat) (m : Nat) :
    (ms ++ [m]).eraseDups = if m ∈ ms then ms.eraseDups else ms.eraseDups ++ [m] := by
  rw [List.eraseDups_append]
  split
  · next h => simp [List.removeAll, h]
  · next h => simp [List.removeAll, h, List.eraseDups_cons]

namespace ParityTerms

variable {α : Type}

inductive Addition (α : Type) where
  | bitString (text : String) (angle : α)
  | word (mask : UInt64) (angle : α)

namespace Addition

def term : Addition α → ParityTerm α
  | .bitString text angle =>
    ⟨packBits (fun i => text.toList[i]? == some '1') text.length, angle⟩
  | .word mask angle => ⟨mask.toNat, angle⟩

def Fits (width? : Option Nat) : Addition α → Prop
  | .bitString text _ =>
    (∀ c ∈ text.toList, c = '0' ∨ c = '1') ∧ 0 < text.length ∧ text.length ≤ 64 ∧
      ∀ n, width? = some n → n = text.length
  | .word mask _ => ∀ n, width? = some n → 0 < n ∧ mask.toNat < 2 ^ n

theorem packBits_eq_maskOfList {text : String} {bits : List Bool}
    (htext : text.toList = bits.map TruthTable.bitChar) :
    packBits (fun i => text.toList[i]? == some '1') text.length = maskOfList bits := by
  have hbit : ∀ b, (TruthTable.bitChar b == '1') = b := by decide
  rw [TruthTable.length_eq_of_bits htext]
  refine packBits_eq (maskOfList_lt bits) fun i hi => ?_
  simp [testBit_maskOfList, htext, hi, hbit]

variable [Add α] {call : Addition α} {ts ts' : ParityTerms α}

def addTo (ts : ParityTerms α) : Addition α → Except InputError (ParityTerms α)
  | .bitString text angle => ts.addBitString text angle
  | .word mask angle => ts.addTerm mask.toNat angle

theorem addTo_eq_ok (h : call.addTo ts = .ok ts') :
    ∃ width, (∀ n, ts.numVars? = some n → n = width) ∧ (ts.numVars? = none → width ≤ maxVars) ∧
      call.term.mask < 2 ^ width ∧
      ts' = { ts with numVars? := some width }.insert call.term.mask call.term.angle := by
  cases call with
  | bitString text angle =>
    obtain ⟨bits, htext, _, hmax, hexp, rfl⟩ := addBitString_eq_ok_iff.mp h
    rw [term, packBits_eq_maskOfList htext]
    exact ⟨bits.length, hexp, fun _ => hmax, maskOfList_lt bits, rfl⟩
  | word mask angle =>
    obtain ⟨hle, rfl⟩ := addTerm_eq_ok_iff.mp h
    refine ⟨_, fun n hn => by rw [hn]; rfl, fun hnone => ?_, (maskWidth_le_iff.mp hle).2, rfl⟩
    rw [hnone]
    exact maskWidth_le_iff.mpr ⟨by decide, mask.toNat_lt⟩

theorem exists_addTo_iff : (∃ ts', call.addTo ts = .ok ts') ↔ call.Fits ts.numVars? := by
  cases call with
  | bitString text angle =>
    simp only [addTo, Fits, addBitString_eq_ok_iff, ← TruthTable.exists_eq_map_bitChar_iff]
    constructor
    · rintro ⟨ts', bits, htext, hpos, hmax, hexp, rfl⟩
      rw [TruthTable.length_eq_of_bits htext]
      exact ⟨⟨bits, htext⟩, hpos, hmax, hexp⟩
    · rintro ⟨⟨bits, htext⟩, hpos, hmax, hexp⟩
      rw [TruthTable.length_eq_of_bits htext] at hpos hmax hexp
      exact ⟨_, bits, htext, hpos, hmax, hexp, rfl⟩
  | word mask angle =>
    simp only [addTo, Fits, addTerm_eq_ok_iff, ← maskWidth_le_iff]
    cases ts.numVars? with
    | none => simp
    | some n => simp

end Addition

namespace Indexed

variable [Add α] {ts : ParityTerms α} (h : ts.Indexed) (mask : Nat) (angle : α)

include h

theorem masks_insert :
    (ts.insert mask angle).masks = if mask ∈ ts.masks then ts.masks else ts.masks ++ [mask] := by
  cases hlookup : ts.index.lookup mask with
  | some pos =>
    rw [masks_insert_of_lookup ts mask angle hlookup,
      if_pos (List.mem_of_getElem? ((h mask pos).mp hlookup))]
  | none =>
    rw [masks_insert_of_lookup_none ts mask angle hlookup,
      if_neg ((h.lookup_eq_none_iff mask).mp hlookup)]

omit [Add α] in
theorem angle?_eq_of_lookup {pos : Nat} (hlookup : ts.index.lookup mask = some pos) :
    ∃ t, ts.terms[pos]? = some t ∧ t.mask = mask ∧ ts.angle? mask = some t.angle := by
  have hmask := (h mask pos).mp hlookup
  rw [masks, List.getElem?_map, Option.map_eq_some_iff] at hmask
  obtain ⟨t, ht, hmask⟩ := hmask
  exact ⟨t, ht, hmask, by simp [angle?, hlookup, ht]⟩

theorem angle?_insert (m : Nat) :
    (ts.insert mask angle).angle? m =
      if mask = m then some ((ts.angle? m).elim angle (· + angle)) else ts.angle? m := by
  cases hlookup : ts.index.lookup mask with
  | some pos =>
    rw [insert_of_lookup ts mask angle hlookup]
    split
    · next hm =>
      subst hm
      obtain ⟨t, ht, -, hangle⟩ := h.angle?_eq_of_lookup mask hlookup
      rw [hangle]
      simp [angle?, hlookup, ht]
    · next hm =>
      cases hother : ts.index.lookup m with
      | none => simp [angle?, hother]
      | some i =>
        -- the two masks stand at different places
        have hne : pos ≠ i := by
          rintro rfl
          exact hm (Option.some.inj (((h mask pos).mp hlookup).symm.trans ((h m pos).mp hother)))
        simp [angle?, hother, List.getElem?_modify, hne]
  | none =>
    split
    · next hm =>
      subst hm
      simp [angle?, hlookup, insert_of_lookup_none]
    · next hm =>
      simp only [angle?, lookup_insert_of_lookup_none ts mask angle hlookup, if_neg (Ne.symm hm)]
      cases hother : ts.index.lookup m with
      | none => rfl
      | some i =>
        obtain ⟨t, ht, -, -⟩ := h.angle?_eq_of_lookup m hother
        have hi : i < ts.terms.length := (List.getElem?_eq_some_iff.mp ht).1
        simp [insert_of_lookup_none, hlookup, List.getElem?_append_left hi]

end Indexed

variable [Add α]

def step (ts : ParityTerms α) (call : Addition α) : ParityTerms α := (call.addTo ts).toOption.getD ts

def accepted (ts : ParityTerms α) : List (Addition α) → List (ParityTerm α)
  | [] => []
  | call :: calls =>
    (if (call.addTo ts).isOk then [call.term] else []) ++ accepted (ts.step call) calls

def total? : List α → Option α
  | [] => none
  | angle :: angles => some (angles.foldl (· + ·) angle)

theorem total?_concat (angles : List α) (angle : α) :
    total? (angles ++ [angle]) = some ((total? angles).elim angle (· + angle)) := by
  cases angles with
  | nil => rfl
  | cons first angles => simp [total?]

structure Records (terms : List (ParityTerm α)) (ts : ParityTerms α) : Prop where
  indexed : ts.Indexed
  masks : ts.masks = (terms.map ParityTerm.mask).eraseDups
  angles : ∀ m, ts.angle? m = total? ((terms.filter fun t => t.mask = m).map ParityTerm.angle)
  narrow : Narrow ts
  width : ts.numVars ≤ maxVars
  fixed : terms ≠ [] → ∃ n, ts.numVars? = some n

section Run

variable {call : Addition α} {ts ts' : ParityTerms α} {terms : List (ParityTerm α)}

theorem Records.addTo (h : Records terms ts) (hcall : call.addTo ts = .ok ts') :
    Records (terms ++ [call.term]) ts' := by
  obtain ⟨width, hsame, hfirst, hmask, rfl⟩ := Addition.addTo_eq_ok hcall
  have hindexed : { ts with numVars? := some width }.Indexed := h.indexed
  have hmasks : { ts with numVars? := some width }.masks = ts.masks := rfl
  refine ⟨hindexed.insert _ _, ?_, fun m => ?_, ?_, ?_, fun _ => ⟨width, numVars?_insert ..⟩⟩
  · rw [hindexed.masks_insert, hmasks, List.map_append, List.map_singleton, eraseDups_concat,
      h.masks]
    simp only [List.mem_eraseDups]
  · have hangle : { ts with numVars? := some width }.angle? m = ts.angle? m := rfl
    rw [hindexed.angle?_insert, hangle, h.angles, List.filter_append, List.map_append]
    split
    · next hm => simp [hm, total?_concat]
    · next hm => simp [hm]
  · exact narrow_insert _ h.narrow (fun n hn => Nat.le_of_eq (hsame n hn)) hmask
  · rw [numVars, numVars?_insert]
    cases hnum : ts.numVars? with
    | none => exact hfirst hnum
    | some n =>
      have hwidth := h.width
      rw [numVars, hnum, hsame n hnum] at hwidth
      exact hwidth

theorem step_of_ok (h : call.addTo ts = .ok ts') : ts.step call = ts' := by
  rw [step, h]
  rfl

theorem step_of_error {e : InputError} (h : call.addTo ts = .error e) : ts.step call = ts := by
  rw [step, h]
  rfl

theorem Records.run (h : Records terms ts) (calls : List (Addition α)) :
    Records (terms ++ accepted ts calls) (calls.foldl step ts) := by
  induction calls generalizing terms ts with
  | nil => simpa [accepted] using h
  | cons call calls ih =>
    rw [List.foldl_cons, accepted, ← List.append_assoc]
    refine ih ?_
    cases hcall : call.addTo ts with
    | ok ts' =>
      rw [step_of_ok hcall]
      exact h.addTo hcall
    | error e =>
      rw [step_of_error hcall]
      simpa [Except.isOk, Except.toBool] using h

theorem Built.step (h : ts.Built) (call : Addition α) : (ts.step call).Built := by
  cases hcall : call.addTo ts with
  | ok ts' =>
    rw [step_of_ok hcall]
    cases call with
    | bitString text angle => exact h.addBitString text angle hcall
    | word mask angle => exact h.addTerm mask.toNat angle hcall
  | error e => rwa [step_of_error hcall]

theorem Built.run (h : ts.Built) (calls : List (Addition α)) : (calls.foldl ParityTerms.step ts).Built := by
  induction calls generalizing ts with
  | nil => exact h
  | cons call calls ih => exact ih (h.step call)

theorem numVars?_step {n : Nat} (h : ts.numVars? = some n) : (ts.step call).numVars? = some n := by
  cases hcall : call.addTo ts with
  | ok ts' =>
    obtain ⟨width, hsame, _, _, rfl⟩ := Addition.addTo_eq_ok hcall
    rw [step_of_ok hcall, numVars?_insert, hsame n h]
  | error e => rwa [step_of_error hcall]

theorem numVars?_run {n : Nat} (h : ts.numVars? = some n) (calls : List (Addition α)) :
    (calls.foldl step ts).numVars? = some n := by
  induction calls generalizing ts with
  | nil => exact h
  | cons call calls ih => exact ih (numVars?_step h)

end Run

theorem records_empty : Records [] (empty : ParityTerms α) :=
  ⟨fun _ _ => ⟨nofun, nofun⟩, rfl, fun _ => rfl, ⟨fun _ => rfl, nofun⟩, Nat.zero_le _, nofun⟩

theorem records_of_withNumVars {k : Nat} {ts : ParityTerms α} (h : withNumVars k = .ok ts) :
    Records [] ts := by
  obtain ⟨hk, rfl⟩ := eq_of_withNumVars h
  exact ⟨fun _ _ => ⟨nofun, nofun⟩, rfl, fun _ => rfl, ⟨nofun, nofun⟩, hk, nofun⟩

theorem additions_accumulate {start : ParityTerms α}
    (hstart : start = empty ∨ ∃ k, withNumVars k = .ok start) (calls : List (Addition α)) :
    let ts := calls.foldl step start
    let terms := accepted start calls
    (∀ call : Addition α, ((∃ ts', call.addTo ts = .ok ts') ↔ call.Fits ts.numVars?) ∧
      ∀ e, call.addTo ts = .error e → ts.step call = ts) ∧
    ((∃ k, withNumVars k = .ok start) ∨ terms ≠ [] →
      ∀ later : List (Addition α), (later.foldl step ts).numVars = ts.numVars) ∧
    ts.terms.map ParityTerm.mask = (terms.map ParityTerm.mask).eraseDups ∧
    (∀ t ∈ ts.terms, t.mask < 2 ^ ts.numVars) ∧ ts.numVars ≤ 64 ∧
    (∀ m pos : Nat, ts.index.lookup m = some pos ↔
      (ts.terms.map ParityTerm.mask)[pos]? = some m) ∧
    ∀ m, ts.angle? m = total? ((terms.filter fun t => t.mask = m).map ParityTerm.angle) := by
  intro ts terms
  have hrecords : Records terms ts := by
    rcases hstart with rfl | ⟨k, hk⟩
    · exact records_empty.run calls
    · exact (records_of_withNumVars hk).run calls
  have hfixed : (∃ k, withNumVars k = .ok start) ∨ terms ≠ [] → ∃ n, ts.numVars? = some n := by
    rintro (⟨k, hk⟩ | hterms)
    · obtain ⟨_, rfl⟩ := eq_of_withNumVars hk
      exact ⟨k, numVars?_run rfl calls⟩
    · exact hrecords.fixed hterms
  refine ⟨fun call => ⟨Addition.exists_addTo_iff, fun _ => step_of_error⟩, fun h later => ?_,
    hrecords.masks, hrecords.narrow.2, hrecords.width, hrecords.indexed, hrecords.angles⟩
  obtain ⟨n, hn⟩ := hfixed h
  rw [numVars, numVars, numVars?_run hn, hn]

def interleavedAdditions : List (Addition Float) :=
  [.bitString "0x" 1, .bitString "011" 0.25, .word 9 0.5, .word 1 0.5, .bitString "0110" 1,
    .word 6 0.125]

theorem additions_accumulate_interleaved :
    let ts := interleavedAdditions.foldl step empty
    ts.terms.map ParityTerm.mask = [6, 1] ∧ ts.angle? 6 = some (0.25 + 0.125) ∧
    ts.angle? 1 = some 0.5 ∧ ts.angle? 9 = none := by
  have haccepted : accepted empty interleavedAdditions = [⟨6, 0.25⟩, ⟨1, 0.5⟩, ⟨6, 0.125⟩] := by
    rfl
  obtain ⟨_, _, hmasks, _, _, _, hangles⟩ := additions_accumulate (.inl rfl) interleavedAdditions
  rw [haccepted] at hmasks hangles
  exact ⟨hmasks, hangles 6, hangles 1, hangles 9⟩

end ParityTerms

end ReversibleSynthesis
