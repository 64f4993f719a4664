import ReversibleSynthesis.Proofs.Placement
import ReversibleSynthesis.Proofs.ReedMuller
import ReversibleSynthesis.Proofs.TruthTable
import ReversibleSynthesis.Synthesis.SingleTarget

namespace ReversibleSynthesis.SingleTarget

variable {α : Type}

theorem all_setBits_toggle (n m : Nat) (s : State) (b : Bool) :
    (setBits n m).all (s.toggle n b) = (setBits n m).all s := by
  have hsame : ∀ q ∈ setBits n m, s.toggle n b q = s q :=
    fun q hq => s.toggle_of_ne b (Nat.ne_of_lt (mem_setBits.mp hq).1)
  rw [Bool.eq_iff_iff, List.all_eq_true, List.all_eq_true]
  exact forall₂_congr fun q hq => by rw [hsame q hq]

theorem after_products (f : TruthTable) {p : Nat} (hp : p < 2 ^ f.numVars) (s : State) :
    after (products f.numVars (f.expansion p) : List (Gate α)) s =
      s.toggle f.numVars (((cube f).expansion p).sum s) := by
  rw [products, ← Cube.parityOf_support, f.monomials_expansion hp]
  change after (((cube f).expansion p).support.map _) s = _
  generalize ((cube f).expansion p).support = masks
  induction masks generalizing s with
  | nil => rfl
  | cons m masks ih =>
    rw [List.map_cons, after_cons, Gate.act_mcx, ih, State.toggle_toggle, Cube.parityOf]
    simp only [all_setBits_toggle]

theorem fits_products (n : Nat) (coefficients : Array Bool) :
    ∀ g ∈ (products n coefficients : List (Gate α)), g.Fits (n + 1) := by
  intro g hg
  obtain ⟨m, _, rfl⟩ := List.mem_map.mp hg
  have hlt : ∀ c ∈ setBits n m, c < n := fun c hc => (mem_setBits.mp hc).1
  exact Gate.fits_mcx (fun c hc => Nat.lt_succ_of_lt (hlt c hc)) (nodup_setBits n m)
    (Nat.lt_succ_self n) fun hmem => Nat.lt_irrefl _ (hlt n hmem)

theorem after_negations {qubits : List Nat} (hnodup : qubits.Nodup) (s : State) (q : Nat) :
    after (qubits.map Gate.not : List (Gate α)) s q = (s q ^^ decide (q ∈ qubits)) := by
  induction qubits generalizing s with
  | nil => simp
  | cons r qubits ih =>
    obtain ⟨hr, hnodup⟩ := List.nodup_cons.mp hnodup
    rw [List.map_cons, after_cons, Gate.act_not, ih hnodup]
    by_cases hq : q = r
    · subst hq
      simp [State.toggle_self, hr]
    · simp [State.toggle_of_ne _ _ hq, hq]

theorem valueAt_cube (f : TruthTable) (s : State) :
    (cube f).valueAt s = f.bit (packBits s f.numVars) :=
  Cube.valueAt_tabulate f.bit f.numVars s

theorem after_positivePolarity (f : TruthTable) (s : State) :
    after (positivePolarity f : List (Gate α)) s =
      s.toggle f.numVars (f.bit (packBits s f.numVars)) := by
  have hsum := (cube f).sum_expansion 0 s
  simp only [Nat.zero_testBit, Bool.xor_false] at hsum
  rw [positivePolarity, after_products f (Nat.two_pow_pos _), hsum, valueAt_cube]

theorem after_bestPolarity (f : TruthTable) (s : State) :
    after (bestPolarity f : List (Gate α)) s =
      s.toggle f.numVars (f.bit (packBits s f.numVars)) := by
  rw [bestPolarity, f.firstLeast_bestExpansion.coefficients_eq]
  have hp := f.firstLeast_bestExpansion.polarity_lt
  generalize f.bestExpansion.polarity = p at hp
  have hneg := fun s q => after_negations (α := α) (nodup_setBits f.numVars p) s q
  have hsum : ((cube f).expansion p).sum
      (after ((setBits f.numVars p).map Gate.not : List (Gate α)) s) =
        f.bit (packBits s f.numVars) := by
    rw [← valueAt_cube, ← (cube f).sum_expansion p s]
    refine Cube.sum_congr _ fun i hi => ?_
    rw [hneg]
    simp [mem_setBits, hi]
  funext q
  rw [after_append, after_append, after_products f hp, hsum, hneg, State.toggle_apply, hneg,
    State.toggle_apply, Bool.xor_right_comm (s q), Bool.xor_assoc, Bool.xor_self, Bool.xor_false]

theorem fits_negations {n : Nat} (p : Nat) :
    ∀ g ∈ ((setBits n p).map Gate.not : List (Gate α)), g.Fits (n + 1) := by
  intro g hg
  obtain ⟨q, hq, rfl⟩ := List.mem_map.mp hg
  exact Gate.fits_not (Nat.lt_succ_of_lt (mem_setBits.mp hq).1)

theorem fits_bestPolarity (f : TruthTable) :
    ∀ g ∈ (bestPolarity f : List (Gate α)), g.Fits (f.numVars + 1) := by
  simp only [bestPolarity, List.forall_mem_append]
  exact ⟨⟨fits_negations _, fits_products _ _⟩, fits_negations _⟩

theorem circuit_spec [Angle α] {f : TruthTable} {strategy : Strategy}
    (h : strategy = .pkrm ∨ strategy = .pprm ∧ f.numVars ≤ Strategy.maxPolarityVars) :
    ∃ gates : List (Gate α), circuit f strategy = .ok gates ∧
      (∀ g ∈ gates, g.Fits (f.numVars + 1)) ∧
      ∀ s, after gates s = s.toggle f.numVars (f.bit (packBits s f.numVars)) := by
  rcases h with rfl | ⟨rfl, hle⟩
  · exact ⟨positivePolarity f, rfl, fits_products _ _, after_positivePolarity f⟩
  · exact ⟨bestPolarity f, if_neg (Nat.not_lt.mpr hle), fits_bestPolarity f, after_bestPolarity f⟩

def controlValue (controls : List Nat) (s : State) : Nat :=
  packBits (fun i => s (controls.getD i 0)) controls.length

section Placed

variable [Angle α] {f : TruthTable} {controls : List Nat} {target : Nat}

theorem wire_of_getElem {wire : Nat → Nat}
    (hwire : ∀ i (hi : i < (controls ++ [target]).length), wire i = (controls ++ [target])[i]) :
    (∀ i < controls.length, wire i = controls.getD i 0) ∧ wire controls.length = target := by
  constructor
  · intro i hi
    rw [hwire i (by rw [List.length_append]; omega), List.getElem_append_left hi]
    simp [hi]
  · rw [hwire _ (by simp)]
    simp

theorem packBits_wire {wire : Nat → Nat}
    (hwire : ∀ i < controls.length, wire i = controls.getD i 0) (s : State) :
    packBits (fun i => s (wire i)) controls.length = controlValue controls s :=
  packBits_congr fun i hi => by rw [hwire i hi]

theorem embed_of_circuit {strategy : Strategy} {gates : List (Gate α)} (n : Netlist α)
    (hlen : controls.length = f.numVars) (hnodup : (controls ++ [target]).Nodup)
    (halloc : ∀ q ∈ controls ++ [target], q < n.numQubits) (hok : circuit f strategy = .ok gates)
    (hfits : ∀ g ∈ gates, g.Fits (f.numVars + 1))
    (hafter : ∀ s, after gates s = s.toggle f.numVars (f.bit (packBits s f.numVars))) :
    ∃ placed : List (Gate α),
      embed strategy f n (controls ++ [target]) = ({ n with gates := n.gates ++ placed }, none) ∧
      (∀ g ∈ placed, g.isClassical = true) ∧
      ∀ s, after placed s = s.toggle target (f.bit (controlValue controls s)) := by
  have hcount : (controls ++ [target]).length = f.numVars + 1 := by simp [hlen]
  obtain ⟨wire, hinj, hwire, hplace⟩ :=
    Netlist.place_of_valid hnodup halloc fun g hg => hcount ▸ (hfits g hg).2
  obtain ⟨hcontrols, htarget⟩ := wire_of_getElem hwire
  refine ⟨gates.map (Gate.relabel wire), ?_, ?_, fun s => ?_⟩
  · rw [embed, if_neg (not_not_intro hcount), hok]
    exact hplace
  · intro g hg
    obtain ⟨g, hmem, rfl⟩ := List.mem_map.mp hg
    exact (hfits g hmem).1
  · rw [after_relabel_toggle hinj hafter, ← hlen, packBits_wire hcontrols, htarget]

theorem embed_adds_function (hf : f.Built) (n : Netlist α) (hlen : controls.length = f.numVars)
    (hnodup : (controls ++ [target]).Nodup)
    (halloc : ∀ q ∈ controls ++ [target], q < n.numQubits) :
    ∃ action : State → State,
      (∀ s, ∃ value, f.bit? (controlValue controls s) = some value ∧
        action s target = (s target ^^ value) ∧ ∀ q, q ≠ target → action s q = s q) ∧
      ∀ strategy, strategy = .pkrm ∨ strategy = .pprm ∧ f.numVars ≤ 12 →
        ∃ gates : List (Gate α),
          embed strategy f n (controls ++ [target]) =
            ({ n with gates := n.gates ++ gates }, none) ∧
          (∀ g ∈ gates, g.isClassical = true) ∧
          ∀ s, (runGates gates s).1 = action s := by
  refine ⟨fun s => s.toggle target (f.bit (controlValue controls s)), fun s => ?_, ?_⟩
  · have hlt : controlValue controls s < 2 ^ f.numVars := hlen ▸ packBits_lt _ _
    exact ⟨f.bit (controlValue controls s), hf.sized.bit?_eq hlt, s.toggle_self _ _,
      fun q hq => s.toggle_of_ne _ hq⟩
  · intro strategy hs
    obtain ⟨gates, hok, hfits, hafter⟩ := circuit_spec (α := α) (f := f) hs
    exact embed_of_circuit n hlen hnodup halloc hok hfits hafter

end Placed

def neither : TruthTable := ⟨2, #[1]⟩

theorem neither_built : neither.Built := by
  have heither : TruthTable.ofBits 2 [false, true, true, true] = .ok ⟨2, #[14]⟩ := by
    decide +kernel
  exact (TruthTable.Built.ofBits heither).complement (by decide +kernel)

theorem embed_adds_function_neither :
    neither.Built ∧ [4, 0].length = neither.numVars ∧ ([4, 0] ++ [2]).Nodup ∧
    ∃ action : State → State,
      (∀ s, ∃ value, neither.bit? (controlValue [4, 0] s) = some value ∧
        action s 2 = (s 2 ^^ value) ∧ ∀ q, q ≠ 2 → action s q = s q) ∧
      ∀ strategy, strategy = .pkrm ∨ strategy = .pprm ∧ 2 ≤ 12 →
        ∃ gates : List (Gate Float),
          embed strategy neither (.withQubits "register" 5) ([4, 0] ++ [2]) =
            (⟨"register", (Netlist.withQubits "register" 5 : Netlist Float).qubits, gates⟩, none) ∧
          (∀ g ∈ gates, g.isClassical = true) ∧
          ∀ s, (runGates gates s).1 = action s :=
  ⟨neither_built, rfl, by decide,
    embed_adds_function neither_built (.withQubits "register" 5) rfl (by decide) (by decide)⟩

end ReversibleSynthesis.SingleTarget
