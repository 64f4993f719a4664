import Mathlib.Data.List.Nodup
import Mathlib.Data.List.TakeWhile
import ReversibleSynthesis.Proofs.Run
import ReversibleSynthesis.Synthesis.Placement

namespace ReversibleSynthesis

variable {α : Type}

namespace Gate

def Valid (size : Nat) (g : Gate α) : Prop := (∀ q ∈ g.qubits, q < size) ∧ g.qubits.Nodup

theorem controlFault?_eq_none_iff (name : String) (target : Nat) (seen cs : List Nat) :
    controlFault? name target seen cs = none ↔
      target ∉ cs ∧ cs.Nodup ∧ ∀ c ∈ cs, c ∉ seen := by
  induction cs generalizing seen with
  | nil => simp [controlFault?]
  | cons c cs ih =>
    rw [controlFault?]
    by_cases ht : c = target
    · subst ht; simp
    · by_cases hs : c ∈ seen
      · simp [ht, hs]
      · rw [if_neg ht, if_neg hs, ih]
        simp only [List.mem_cons, List.nodup_cons, not_or, forall_eq_or_imp]
        constructor
        · rintro ⟨hmem, hnodup, hseen⟩
          exact ⟨⟨Ne.symm ht, hmem⟩, ⟨fun hc => (hseen c hc).1 rfl, hnodup⟩, hs,
            fun d hd => (hseen d hd).2⟩
        · rintro ⟨⟨_, hmem⟩, ⟨hc, hnodup⟩, _, hseen⟩
          exact ⟨hmem, hnodup, fun d hd => ⟨fun hdc => hc (hdc ▸ hd), hseen d hd⟩⟩

theorem nodup_qubits_iff (g : Gate α) :
    g.qubits.Nodup ↔ g.target ∉ g.controls ∧ g.controls.Nodup := by
  rw [qubits, List.nodup_append]
  simp only [List.nodup_singleton, List.mem_singleton, true_and, forall_eq]
  exact ⟨fun h => ⟨fun ht => h.2 _ ht rfl, h.1⟩, fun h => ⟨h.2, fun c hc heq => h.1 (heq ▸ hc)⟩⟩

theorem fault?_eq_none_iff (size : Nat) (g : Gate α) : g.fault? size = none ↔ g.Valid size := by
  unfold fault?
  cases hfind : g.qubits.find? (fun q => decide (size ≤ q)) with
  | some q =>
    have hmem := List.mem_of_find?_eq_some hfind
    have hq : size ≤ q := by simpa using List.find?_some hfind
    simp only [reduceCtorEq, false_iff]
    exact fun hv => absurd (hv.1 q hmem) (by omega)
  | none =>
    have hlt : ∀ q ∈ g.qubits, q < size := by simpa using hfind
    simp only [controlFault?_eq_none_iff, Valid, nodup_qubits_iff]
    exact ⟨fun h => ⟨hlt, h.1, h.2.1⟩, fun h => ⟨h.2.1, h.2.2, by simp⟩⟩

theorem Valid.target_lt {size : Nat} {g : Gate α} (h : g.Valid size) : g.target < size :=
  h.1 _ (by simp [qubits])

theorem Valid.target_notMem {size : Nat} {g : Gate α} (h : g.Valid size) :
    g.target ∉ g.controls := by
  intro hmem
  have := List.nodup_append.mp h.2
  exact this.2.2 _ hmem _ (by simp) rfl

theorem valid_not {size t : Nat} (ht : t < size) : (Gate.not t : Gate α).Valid size := by
  simp [Valid, qubits, Gate.not, ht]

theorem valid_cnot {size c t : Nat} (hc : c < size) (ht : t < size) (h : c ≠ t) :
    (Gate.cnot c t : Gate α).Valid size := by
  simp [Valid, qubits, Gate.cnot, hc, ht, h]

theorem valid_phase {size t : Nat} (angle : α) (ht : t < size) : (Gate.phase angle t).Valid size := by
  simp [Valid, qubits, Gate.phase, ht]

theorem valid_hadamard {size t : Nat} (ht : t < size) : (Gate.hadamard t : Gate α).Valid size := by
  simp [Valid, qubits, Gate.hadamard, ht]

theorem valid_mcx {size t : Nat} {cs : List Nat} (hcs : ∀ c ∈ cs, c < size) (hn : cs.Nodup)
    (ht : t < size) (hmem : t ∉ cs) : (Gate.mcx cs t : Gate α).Valid size := by
  constructor
  · intro q hq
    rcases List.mem_append.mp hq with h | h
    · exact hcs q h
    · rw [List.mem_singleton.mp h]; exact ht
  · refine List.nodup_append.mpr ⟨hn, List.nodup_singleton t, ?_⟩
    intro a ha b hb hab
    rw [hab, List.mem_singleton.mp hb] at ha
    exact hmem ha

theorem Valid.mono {size size' : Nat} {g : Gate α} (h : g.Valid size) (hle : size ≤ size') :
    g.Valid size' :=
  ⟨fun q hq => Nat.lt_of_lt_of_le (h.1 q hq) hle, h.2⟩

def Fits (size : Nat) (g : Gate α) : Prop := g.isClassical = true ∧ g.Valid size

theorem Fits.mono {size size' : Nat} {g : Gate α} (h : g.Fits size) (hle : size ≤ size') :
    g.Fits size' :=
  ⟨h.1, h.2.mono hle⟩

theorem fits_not {size t : Nat} (ht : t < size) : (Gate.not t : Gate α).Fits size :=
  ⟨rfl, valid_not ht⟩

theorem fits_cnot {size c t : Nat} (hc : c < size) (ht : t < size) (h : c ≠ t) :
    (Gate.cnot c t : Gate α).Fits size :=
  ⟨rfl, valid_cnot hc ht h⟩

theorem fits_mcx {size t : Nat} {cs : List Nat} (hcs : ∀ c ∈ cs, c < size) (hn : cs.Nodup)
    (ht : t < size) (hmem : t ∉ cs) : (Gate.mcx cs t : Gate α).Fits size :=
  ⟨rfl, valid_mcx hcs hn ht hmem⟩

theorem qubits_relabel (f : Nat → Nat) (g : Gate α) : (g.relabel f).qubits = g.qubits.map f := by
  simp [qubits, relabel]

theorem Valid.relabel {w size : Nat} {f : Nat → Nat} {g : Gate α} (h : g.Valid w)
    (hf : Function.Injective f) (hlt : ∀ i < w, f i < size) : (g.relabel f).Valid size := by
  constructor
  · rw [qubits_relabel]
    intro q hq
    obtain ⟨i, hi, rfl⟩ := List.mem_map.mp hq
    exact hlt i (h.1 i hi)
  · rw [qubits_relabel]
    exact h.2.map hf

theorem Fits.relabel {w size : Nat} {f : Nat → Nat} {g : Gate α} (h : g.Fits w)
    (hf : Function.Injective f) (hlt : ∀ i < w, f i < size) : (g.relabel f).Fits size :=
  ⟨h.1, h.2.relabel hf hlt⟩

end Gate

namespace Netlist

theorem extend_of_valid {n : Netlist α} {gs : List (Gate α)}
    (h : ∀ g ∈ gs, g.Valid n.numQubits) :
    n.extend gs = ({ n with gates := n.gates ++ gs }, none) := by
  have hnone : ∀ g ∈ gs, g.fault? n.numQubits = none :=
    fun g hg => (g.fault?_eq_none_iff _).mpr (h g hg)
  have htake : gs.takeWhile (fun g => (g.fault? n.numQubits).isNone) = gs :=
    List.takeWhile_eq_self_iff.mpr fun g hg => by simp [hnone g hg]
  have hfind : gs.findSome? (fun g => g.fault? n.numQubits) = none :=
    List.findSome?_eq_none_iff.mpr hnone
  simp only [extend, htake, hfind]

@[simp] theorem numQubits_withQubits (name : String) (size : Nat) :
    (withQubits name size : Netlist α).numQubits = size := by
  simp [withQubits, numQubits]

theorem ofCircuit_of_valid {name : String} {size : Nat} {gs : List (Gate α)}
    (h : ∀ g ∈ gs, g.Valid size) :
    ofCircuit name size gs = .ok { (withQubits name size : Netlist α) with gates := gs } := by
  have hext : (withQubits name size).extend gs =
      ({ (withQubits name size : Netlist α) with gates := [] ++ gs }, none) :=
    extend_of_valid (by simpa using h)
  rw [ofCircuit, hext]
  simp [withQubits]

theorem exists_renaming {qubits : List Nat} {circuit : List (Gate α)} (hnodup : qubits.Nodup)
    (hc : ∀ g ∈ circuit, g.Valid qubits.length) :
    ∃ f : Nat → Nat, Function.Injective f ∧ (∀ i (hi : i < qubits.length), f i = qubits[i]) ∧
      circuit.map (Gate.relabel fun w => qubits.toArray.getD w 0) = circuit.map (Gate.relabel f) := by
  have hinj : ∀ i < qubits.length, ∀ j < qubits.length,
      qubits.toArray.getD i 0 = qubits.toArray.getD j 0 → i = j := by
    intro i hi j hj hij
    simp only [Array.getD, List.size_toArray, hi, hj, dif_pos] at hij
    exact (hnodup.getElem_inj_iff).mp hij
  obtain ⟨f, hf, hfq⟩ := exists_injective_extension hinj
  refine ⟨f, hf, fun i hi => ?_, ?_⟩
  · rw [hfq i hi]
    simp [Array.getD, hi]
  · exact List.map_congr_left fun g hg =>
      Gate.relabel_congr fun q hgq => (hfq q ((hc g hg).1 q hgq)).symm

theorem place_eq_of_valid {n : Netlist α} {qubits : List Nat} {circuit : List (Gate α)}
    (hnodup : qubits.Nodup) (hq : ∀ q ∈ qubits, q < n.numQubits)
    (hc : ∀ g ∈ circuit, g.Valid qubits.length) :
    n.place qubits circuit =
      ({ n with gates := n.gates ++ circuit.map (Gate.relabel fun w => qubits.toArray.getD w 0) },
        none) := by
  obtain ⟨f, hf, hfi, hmap⟩ := exists_renaming hnodup hc
  have hvalid : ∀ g ∈ circuit.map (Gate.relabel f), g.Valid n.numQubits := by
    intro g hg
    obtain ⟨g, hgc, rfl⟩ := List.mem_map.mp hg
    refine (hc g hgc).relabel hf fun i hi => ?_
    rw [hfi i hi]
    exact hq _ (List.getElem_mem hi)
  simp only [place, hmap, extend_of_valid hvalid, Option.map_none]

theorem place_of_valid {n : Netlist α} {qubits : List Nat} {circuit : List (Gate α)}
    (hnodup : qubits.Nodup) (hq : ∀ q ∈ qubits, q < n.numQubits)
    (hc : ∀ g ∈ circuit, g.Valid qubits.length) :
    ∃ f : Nat → Nat, Function.Injective f ∧ (∀ i (hi : i < qubits.length), f i = qubits[i]) ∧
      n.place qubits circuit =
        ({ n with gates := n.gates ++ circuit.map (Gate.relabel f) }, none) := by
  obtain ⟨f, hf, hfi, hmap⟩ := exists_renaming hnodup hc
  exact ⟨f, hf, hfi, hmap ▸ place_eq_of_valid hnodup hq hc⟩

end Netlist

end ReversibleSynthesis
