import ReversibleSynthesis.Proofs.Bennett.Block
import ReversibleSynthesis.Proofs.Network

namespace ReversibleSynthesis.Bennett

variable {α : Type}

theorem lookup_reverse_eq_some_iff {entries : List (Nat × Nat)}
    (h : (entries.map Prod.fst).Nodup) (k v : Nat) :
    entries.reverse.lookup k = some v ↔ (k, v) ∈ entries := by
  rw [← List.mem_reverse]
  have hrev : (entries.reverse.map Prod.fst).Nodup := by
    rw [List.map_reverse]
    exact List.nodup_reverse.mpr h
  generalize entries.reverse = entries at hrev
  clear h
  induction entries with
  | nil => simp
  | cons entry entries ih =>
    obtain ⟨k', v'⟩ := entry
    rw [List.map_cons, List.nodup_cons] at hrev
    by_cases hk : k = k'
    · subst hk
      have hother : (k, v) ∉ entries := fun hmem => hrev.1 (List.mem_map.mpr ⟨_, hmem, rfl⟩)
      simp [hother, eq_comm]
    · simp only [List.lookup_cons, beq_false_of_ne hk, ih hrev.2, List.mem_cons, Prod.mk.injEq, hk,
        false_and, false_or]

section Qubits

variable {n : Network}

def wires (n : Network) : List (Nat × Nat) := assignment n (Layout.of n)

theorem map_fst_wires (n : Network) : (wires n).map Prod.fst = n.inputs ++ n.gates.map Prod.fst := by
  rw [wires, assignment, List.map_append, List.map_fst_zip (by simp [Layout.of, Network.numInputs]),
    List.map_fst_zip (by simp [Layout.of, n.length_gates])]

theorem nodup_wires (h : n.WellFormed) : ((wires n).map Prod.fst).Nodup := by
  rw [map_fst_wires]
  refine List.nodup_append.mpr ⟨?_, ?_, ?_⟩
  · rw [List.nodup_iff_getElem?_ne_getElem?]
    intro j k hjk hk heq
    obtain ⟨i, hi⟩ : ∃ i, n.inputs[k]? = some i := ⟨_, List.getElem?_eq_getElem hk⟩
    have hj := (h.inputs j i).mp (heq.trans hi)
    rw [(h.inputs k i).mp hi] at hj
    cases hj
    exact Nat.lt_irrefl _ hjk
  · exact (List.pairwise_map.mpr n.pairwise_gates).imp Nat.ne_of_lt
  · intro i hi j hj heq
    subst heq
    obtain ⟨k, hk⟩ := List.mem_iff_getElem?.mp hi
    obtain ⟨⟨_, node⟩, hmem, rfl⟩ := List.mem_map.mp hj
    obtain ⟨hnode, hgate⟩ := (n.mem_gates _ _).mp hmem
    rw [(h.inputs k _).mp hk] at hnode
    cases hnode
    cases hgate

theorem mem_wires (n : Network) (i q : Nat) :
    (i, q) ∈ wires n ↔
      n.inputs[q]? = some i ∨ ∃ j node, n.gates[j]? = some (i, node) ∧ n.numInputs + j = q := by
  rw [wires, assignment, List.mem_append, List.mem_iff_getElem?, List.mem_iff_getElem?]
  refine or_congr ⟨?_, fun h => ⟨q, ?_⟩⟩ ⟨?_, ?_⟩
  · rintro ⟨k, hk⟩
    obtain ⟨hinput, hrange⟩ := List.getElem?_zip_eq_some.mp hk
    obtain ⟨_, rfl⟩ := List.getElem?_eq_some_iff.mp hrange
    simpa [Layout.of] using hinput
  · refine List.getElem?_zip_eq_some.mpr ⟨h, List.getElem?_range ?_⟩
    exact (List.getElem?_eq_some_iff.mp h).1
  · rintro ⟨j, hj⟩
    obtain ⟨hgate, hrange⟩ := List.getElem?_zip_eq_some.mp hj
    rw [List.getElem?_map, Option.map_eq_some_iff] at hgate
    obtain ⟨⟨_, node⟩, hmem, rfl⟩ := hgate
    obtain ⟨_, rfl⟩ := List.getElem?_eq_some_iff.mp hrange
    exact ⟨j, node, hmem, by simp [Layout.of]⟩
  · rintro ⟨j, node, hj, rfl⟩
    have hlt : j < n.numGates := n.length_gates ▸ (List.getElem?_eq_some_iff.mp hj).1
    refine ⟨j, List.getElem?_zip_eq_some.mpr ⟨by simp [hj], ?_⟩⟩
    simp [Layout.of, hlt]

theorem qubit?_eq_some_iff (h : n.WellFormed) (i q : Nat) :
    qubit? (wires n) i = some q ↔ n.nodes[i]? = some (.input q) ∨
      ∃ j node, n.gates[j]? = some (i, node) ∧ n.numInputs + j = q := by
  rw [qubit?, lookup_reverse_eq_some_iff (nodup_wires h), mem_wires, h.inputs]

theorem qubit?_lt (h : n.WellFormed) {i q : Nat} (hq : qubit? (wires n) i = some q) :
    q < n.numInputs + n.numGates := by
  rcases (qubit?_eq_some_iff h i q).mp hq with hin | ⟨j, node, hj, rfl⟩
  · have := h.lt_numInputs hin
    omega
  · have : j < n.numGates := n.length_gates ▸ (List.getElem?_eq_some_iff.mp hj).1
    omega

theorem qubit?_injective (h : n.WellFormed) {i i' q : Nat} (hi : qubit? (wires n) i = some q)
    (hi' : qubit? (wires n) i' = some q) : i = i' := by
  rcases (qubit?_eq_some_iff h i q).mp hi with hin | ⟨j, node, hj, rfl⟩
  · rcases (qubit?_eq_some_iff h i' q).mp hi' with hin' | ⟨j', node', _, rfl⟩
    · exact Option.some.inj (((h.inputs q i).mpr hin).symm.trans ((h.inputs q i').mpr hin'))
    · have := h.lt_numInputs hin
      omega
  · rcases (qubit?_eq_some_iff h i' _).mp hi' with hin' | ⟨j', node', hj', heq⟩
    · have := h.lt_numInputs hin'
      omega
    · cases Nat.add_left_cancel heq
      cases hj.symm.trans hj'
      rfl

theorem qubit?_gate (h : n.WellFormed) {i : Nat} {node : Node} (hi : (i, node) ∈ n.gates) :
    ∃ q, qubit? (wires n) i = some q ∧ n.numInputs ≤ q := by
  obtain ⟨j, hj⟩ := List.mem_iff_getElem?.mp hi
  exact ⟨n.numInputs + j, (qubit?_eq_some_iff h i _).mpr (.inr ⟨j, node, hj, rfl⟩), by omega⟩

theorem mem_qubits_operand {f : Signal} {q : Nat} (hq : q ∈ (operand (wires n) f).qubits) :
    qubit? (wires n) f.node = some q := by
  unfold operand at hq
  split at hq
  · next q' hq' => rw [hq', List.mem_singleton.mp hq]
  · cases hq

theorem safe_operand (h : n.WellFormed) {i t : Nat} {node : Node} (hi : n.nodes[i]? = some node)
    (ht : qubit? (wires n) i = some t) :
    ∀ f ∈ node.fanins, (operand (wires n) f).Safe (n.numInputs + n.numGates) t := by
  intro f hf q hq
  have hqubit := mem_qubits_operand hq
  refine ⟨qubit?_lt h hqubit, ?_⟩
  rintro rfl
  have hlt := h.fanins i node hi f hf
  rw [qubit?_injective h hqubit ht] at hlt
  exact Nat.lt_irrefl _ hlt

theorem value_operand (h : n.WellFormed) {inputs : Nat → Bool} {f : Signal} {s : State}
    (hf : f.node < n.size)
    (hs : ∀ q, qubit? (wires n) f.node = some q → s q = (n.values inputs).getD f.node false) :
    (operand (wires n) f).value s = f.value (n.values inputs) := by
  unfold operand
  split
  · next q hq => rw [Operand.value, Signal.value, hs q hq]
  · next hnone =>
    obtain ⟨node, hnode⟩ : ∃ node, n.nodes[f.node]? = some node := ⟨_, Array.getElem?_eq_getElem hf⟩
    have hconstant : node = .constant := by
      cases hgate : node.isGate with
      | true =>
        obtain ⟨q, hq, _⟩ := qubit?_gate h ((n.mem_gates _ _).mpr ⟨hnode, hgate⟩)
        rw [hnone] at hq
        cases hq
      | false =>
        cases node with
        | constant => rfl
        | input k =>
          have hq := (qubit?_eq_some_iff h f.node k).mpr (.inl hnode)
          rw [hnone] at hq
          cases hq
        | and a b => cases hgate
        | xor a b => cases hgate
        | maj a b c => cases hgate
    subst hconstant
    rw [Operand.value, Signal.value, h.values_eq inputs hnode]
    simp [Node.value]

def blockOf (n : Network) (entry : Nat × Node) : List (Gate α) :=
  match qubit? (wires n) entry.1 with
  | some target => compute (wires n) target entry.2
  | none => []

theorem blockOf_eq (h : n.WellFormed) {entry : Nat × Node} (hmem : entry ∈ n.gates) :
    ∃ t, qubit? (wires n) entry.1 = some t ∧ n.numInputs ≤ t ∧
      t < n.numInputs + n.numGates ∧ (blockOf n entry : List (Gate α)) = compute (wires n) t entry.2 ∧
      ∀ f ∈ entry.2.fanins, (operand (wires n) f).Safe (n.numInputs + n.numGates) t := by
  obtain ⟨t, ht, hle⟩ := qubit?_gate h hmem
  refine ⟨t, ht, hle, qubit?_lt h ht, ?_, safe_operand h ((n.mem_gates _ _).mp hmem).1 ht⟩
  rw [blockOf, ht]

theorem fits_blockOf (h : n.WellFormed) {entry : Nat × Node} (hmem : entry ∈ n.gates) :
    ∀ g ∈ (blockOf n entry : List (Gate α)), g.Fits (n.numInputs + n.numGates) := by
  obtain ⟨t, _, _, hlt, hblock, hsafe⟩ := blockOf_eq (α := α) h hmem
  rw [hblock]
  exact fits_compute hlt hsafe

theorem after_blockOf_twice (h : n.WellFormed) {entry : Nat × Node} (hmem : entry ∈ n.gates)
    (s : State) :
    after (blockOf n entry : List (Gate α)) (after (blockOf n entry : List (Gate α)) s) = s := by
  obtain ⟨t, _, _, _, hblock, hsafe⟩ := blockOf_eq (α := α) h hmem
  rw [hblock]
  exact after_compute_twice (fun f hf => (hsafe f hf).notMem) s

structure Holds (n : Network) (s : State) (computed : List (Nat × Node)) (t : State) : Prop where
  kept : ∀ q, (∀ entry ∈ computed, qubit? (wires n) entry.1 ≠ some q) → t q = s q
  held : ∀ entry ∈ computed, ∀ q, qubit? (wires n) entry.1 = some q →
    t q = (n.values s).getD entry.1 false

theorem Holds.qubit (h : n.WellFormed) {s t : State} {computed : List (Nat × Node)}
    (ht : Holds n s computed t) (hgates : ∀ entry ∈ computed, entry ∈ n.gates) {i q : Nat}
    (hq : qubit? (wires n) i = some q) (hi : ∀ node, (i, node) ∈ n.gates → (i, node) ∈ computed) :
    t q = (n.values s).getD i false := by
  rcases (qubit?_eq_some_iff h i q).mp hq with hin | ⟨j, node, hj, rfl⟩
  · rw [h.values_eq s hin, Node.value]
    refine ht.kept q fun entry hentry hsame => ?_
    obtain ⟨q', hq', hle⟩ := qubit?_gate h (hgates entry hentry)
    cases hq'.symm.trans hsame
    exact absurd (h.lt_numInputs hin) (Nat.not_lt.mpr hle)
  · exact ht.held _ (hi node (List.mem_of_getElem? hj)) _ hq

theorem Holds.fanin (h : n.WellFormed) {s t : State} {computed rest : List (Nat × Node)}
    {i : Nat} {node : Node} (hsplit : n.gates = computed ++ (i, node) :: rest)
    (ht : Holds n s computed t) {f : Signal} (hf : f ∈ node.fanins) :
    (operand (wires n) f).value t = f.value (n.values s) := by
  have hmem : (i, node) ∈ n.gates := by simp [hsplit]
  have hnode := ((n.mem_gates i node).mp hmem).1
  have hfi := h.fanins i node hnode f hf
  have hlater : ∀ e ∈ rest, i < e.1 := by
    have hsorted := n.pairwise_gates
    rw [hsplit, List.pairwise_append] at hsorted
    exact fun e he => (List.pairwise_cons.mp hsorted.2.1).1 e he
  refine value_operand h (Nat.lt_trans hfi (Network.lt_size_of_getElem? hnode)) fun q hq => ?_
  refine ht.qubit h (fun e he => by simp [hsplit, he]) hq fun node' hmem' => ?_
  rw [hsplit, List.mem_append, List.mem_cons] at hmem'
  rcases hmem' with hmem' | heq | hmem'
  · exact hmem'
  · cases heq
    exact absurd hfi (Nat.lt_irrefl _)
  · exact absurd hfi (Nat.lt_asymm (hlater _ hmem'))

theorem Holds.block (h : n.WellFormed) {s t : State} {computed rest : List (Nat × Node)}
    {entry : Nat × Node} (hsplit : n.gates = computed ++ entry :: rest)
    (hclean : ∀ q, n.numInputs ≤ q → q < n.numInputs + n.numGates → s q = false)
    (ht : Holds n s computed t) :
    Holds n s (computed ++ [entry]) (after (blockOf n entry : List (Gate α)) t) := by
  obtain ⟨i, node⟩ := entry
  have hmem : (i, node) ∈ n.gates := by simp [hsplit]
  obtain ⟨hnode, hgate⟩ := (n.mem_gates i node).mp hmem
  obtain ⟨q, hq, hle, hlt, hblock, hsafe⟩ := blockOf_eq (α := α) h hmem
  have hother : ∀ e ∈ computed, qubit? (wires n) e.1 ≠ some q := by
    intro e he hsame
    have hsorted := n.pairwise_gates
    rw [hsplit, List.pairwise_append] at hsorted
    exact Nat.ne_of_lt (hsorted.2.2 e he _ List.mem_cons_self) (qubit?_injective h hsame hq)
  have hfresh : t q = false := (ht.kept q hother).trans (hclean q hle hlt)
  have hvalue : after (blockOf n (i, node) : List (Gate α)) t =
      t.toggle q ((n.values s).getD i false) := by
    rw [hblock, after_compute (fun f hf => (hsafe f hf).notMem),
      gateValue_eq_value hgate (fun f hf => ht.fanin h hsplit hf) s, h.values_eq s hnode]
  rw [hvalue]
  constructor
  · intro r hr
    have hne : r ≠ q := by
      rintro rfl
      exact hr (i, node) (by simp) hq
    rw [State.toggle_of_ne _ _ hne]
    exact ht.kept r fun e he => hr e (by simp [he])
  · intro e he r hr
    rcases List.mem_append.mp he with he | he
    · have hne : r ≠ q := fun heq => hother e he (heq ▸ hr)
      rw [State.toggle_of_ne _ _ hne]
      exact ht.held e he r hr
    · cases List.mem_singleton.mp he
      cases hq.symm.trans hr
      rw [State.toggle_self, hfresh, Bool.false_xor]

theorem Holds.blocks (h : n.WellFormed) {s : State}
    (hclean : ∀ q, n.numInputs ≤ q → q < n.numInputs + n.numGates → s q = false)
    {rest computed : List (Nat × Node)} {t : State} (hsplit : n.gates = computed ++ rest)
    (ht : Holds n s computed t) :
    Holds n s n.gates (after ((rest.map (blockOf n)).flatten : List (Gate α)) t) := by
  induction rest generalizing computed t with
  | nil =>
    rw [hsplit, List.append_nil]
    exact ht
  | cons entry rest ih =>
    rw [List.map_cons, List.flatten_cons, after_append]
    exact ih (by simp [hsplit]) (ht.block h hsplit hclean)

def computed (n : Network) : List (Gate α) := (n.gates.map (blockOf n)).flatten

def uncomputed (n : Network) : List (Gate α) := (n.gates.map (blockOf n)).reverse.flatten

def copied (n : Network) : List (Gate α) :=
  (n.outputs.zip (Layout.of n).outputs).flatMap fun p => toggleXor [operand (wires n) p.1.signal] p.2

theorem circuit_eq (n : Network) :
    (circuit n (Layout.of n) : List (Gate α)) = computed n ++ copied n ++ uncomputed n := rfl

theorem holds_computed (h : n.WellFormed) {s : State}
    (hclean : ∀ q, n.numInputs ≤ q → q < n.numInputs + n.numGates → s q = false) :
    Holds n s n.gates (after (computed n : List (Gate α)) s) :=
  Holds.blocks h hclean (List.nil_append n.gates).symm ⟨fun _ _ => rfl, by simp⟩

theorem fits_computed (h : n.WellFormed) :
    ∀ g ∈ (computed n : List (Gate α)), g.Fits (n.numInputs + n.numGates) := by
  intro g hg
  obtain ⟨block, hblock, hg⟩ := List.mem_flatten.mp hg
  obtain ⟨entry, hentry, rfl⟩ := List.mem_map.mp hblock
  exact fits_blockOf h hentry g hg

theorem mem_uncomputed {g : Gate α} : g ∈ (uncomputed n : List (Gate α)) ↔ g ∈ computed n := by
  simp [uncomputed, computed]

theorem after_uncomputed (h : n.WellFormed) (s : State) :
    after (uncomputed n : List (Gate α)) (after (computed n : List (Gate α)) s) = s := by
  refine after_blocks_reverse (fun block hblock s => ?_) s
  obtain ⟨entry, hentry, rfl⟩ := List.mem_map.mp hblock
  exact after_blockOf_twice h hentry s

theorem after_copied {size : Nat} {pairs : List (Output × Nat)}
    (hread : ∀ p ∈ pairs, ∀ q ∈ (operand (wires n) p.1.signal).qubits, q < size)
    (hwrite : ∀ p ∈ pairs, size ≤ p.2) (hnodup : (pairs.map Prod.snd).Nodup) (t : State) :
    (∀ p ∈ pairs, after (pairs.flatMap fun p => toggleXor [operand (wires n) p.1.signal] p.2 :
        List (Gate α)) t p.2 = (t p.2 ^^ (operand (wires n) p.1.signal).value t)) ∧
      ∀ q, q ∉ pairs.map Prod.snd →
        after (pairs.flatMap fun p => toggleXor [operand (wires n) p.1.signal] p.2 :
          List (Gate α)) t q = t q := by
  induction pairs generalizing t with
  | nil => exact ⟨by simp, fun q _ => rfl⟩
  | cons p pairs ih =>
    rw [List.map_cons, List.nodup_cons] at hnodup
    have hne : ∀ p' ∈ p :: pairs, p.2 ∉ (operand (wires n) p'.1.signal).qubits := fun p' hp' hq =>
      absurd (hread p' hp' _ hq) (Nat.not_lt.mpr (hwrite p List.mem_cons_self))
    obtain ⟨hpairs, hother⟩ := ih (fun p' hp' => hread p' (List.mem_cons_of_mem _ hp'))
      (fun p' hp' => hwrite p' (List.mem_cons_of_mem _ hp')) hnodup.2
      (t.toggle p.2 ((operand (wires n) p.1.signal).value t))
    simp only [List.flatMap_cons, after_append,
      after_toggleXor_singleton (hne p List.mem_cons_self)]
    constructor
    · intro p' hp'
      rcases List.mem_cons.mp hp' with rfl | hmem
      · rw [hother _ hnodup.1, State.toggle_self]
      · have hdistinct : p'.2 ≠ p.2 := fun heq =>
          hnodup.1 (heq ▸ List.mem_map.mpr ⟨p', hmem, rfl⟩)
        rw [hpairs p' hmem, State.toggle_of_ne _ _ hdistinct, Operand.value_toggle (hne p' hp')]
    · intro q hq
      rw [List.map_cons, List.mem_cons, not_or] at hq
      rw [hother q hq.2, State.toggle_of_ne _ _ hq.1]

theorem map_snd_outputs (n : Network) :
    (n.outputs.zip (Layout.of n).outputs).map Prod.snd = (Layout.of n).outputs :=
  List.map_snd_zip (by simp [Layout.of, Network.numOutputs])

theorem nodup_outputs (n : Network) : (Layout.of n).outputs.Nodup :=
  List.nodup_range.map fun _ _ h => Nat.add_left_cancel h

theorem mem_outputs {q : Nat} : q ∈ (Layout.of n).outputs ↔
    n.numInputs + n.numGates ≤ q ∧ q < n.numInputs + n.numGates + n.numOutputs := by
  simp only [Layout.of, List.mem_map, List.mem_range]
  constructor
  · rintro ⟨k, hk, rfl⟩
    omega
  · rintro ⟨hle, hlt⟩
    exact ⟨q - (n.numInputs + n.numGates), by omega, by omega⟩

theorem lt_of_mem_qubits_operand (h : n.WellFormed) {f : Signal} {q : Nat}
    (hq : q ∈ (operand (wires n) f).qubits) : q < n.numInputs + n.numGates :=
  qubit?_lt h (mem_qubits_operand hq)

theorem after_copied_outputs (h : n.WellFormed) (t : State) :
    (∀ p ∈ n.outputs.zip (Layout.of n).outputs, after (copied n : List (Gate α)) t p.2 =
        (t p.2 ^^ (operand (wires n) p.1.signal).value t)) ∧
      ∀ q < n.numInputs + n.numGates, after (copied n : List (Gate α)) t q = t q := by
  have hspec := after_copied (α := α) (fun p _ q hq => lt_of_mem_qubits_operand h hq)
    (fun p hp => (mem_outputs.mp (List.of_mem_zip hp).2).1)
    ((map_snd_outputs n).symm ▸ nodup_outputs n) t
  refine ⟨hspec.1, fun q hq => hspec.2 q ?_⟩
  rw [map_snd_outputs, mem_outputs]
  omega

theorem fits_circuit (h : n.WellFormed) :
    ∀ g ∈ (circuit n (Layout.of n) : List (Gate α)),
      g.Fits (n.numInputs + n.numGates + n.numOutputs) := by
  have hcomputed : ∀ g ∈ (computed n : List (Gate α)),
      g.Fits (n.numInputs + n.numGates + n.numOutputs) :=
    fun g hg => (fits_computed h g hg).mono (Nat.le_add_right _ _)
  rw [circuit_eq]
  simp only [List.forall_mem_append]
  refine ⟨⟨hcomputed, ?_⟩, fun g hg => hcomputed g (mem_uncomputed.mp hg)⟩
  intro g hg
  obtain ⟨p, hp, hg⟩ := List.mem_flatMap.mp hg
  have htarget := mem_outputs.mp (List.of_mem_zip hp).2
  refine fits_toggleXor htarget.2 ?_ g hg
  intro o ho q hq
  rw [List.mem_singleton.mp ho] at hq
  have := lt_of_mem_qubits_operand h hq
  omega

theorem after_circuit_inner (h : n.WellFormed) (s : State) {q : Nat}
    (hq : q < n.numInputs + n.numGates) :
    after (circuit n (Layout.of n) : List (Gate α)) s q = s q := by
  have hbelow : ∀ g ∈ (uncomputed n : List (Gate α)), ∀ r ∈ g.qubits, r < n.numInputs + n.numGates :=
    fun g hg => (fits_computed h g (mem_uncomputed.mp hg)).2.1
  rw [circuit_eq, after_append, after_append,
    after_agree hbelow (after_copied_outputs (α := α) h _).2 q hq, after_uncomputed h]

theorem after_circuit_output (h : n.WellFormed) {s : State}
    (hclean : ∀ q, n.numInputs ≤ q → q < n.numInputs + n.numGates → s q = false)
    {p : Output × Nat} (hp : p ∈ n.outputs.zip (Layout.of n).outputs) :
    after (circuit n (Layout.of n) : List (Gate α)) s p.2 =
      (s p.2 ^^ p.1.signal.value (n.values s)) := by
  have hle := (mem_outputs.mp (List.of_mem_zip hp).2).1
  have hframe : ∀ g ∈ (computed n : List (Gate α)), p.2 ≠ g.target := by
    intro g hg heq
    have := (fits_computed h g hg).2.target_lt
    omega
  have hvalue : (operand (wires n) p.1.signal).value (after (computed n : List (Gate α)) s) =
      p.1.signal.value (n.values s) :=
    value_operand h (h.outputs _ (List.of_mem_zip hp).1) fun q hq =>
      (holds_computed h hclean).qubit h (fun _ he => he) hq fun _ he => he
  rw [circuit_eq, after_append, after_append,
    after_of_not_target fun g hg => hframe g (mem_uncomputed.mp hg),
    (after_copied_outputs h _).1 p hp, after_of_not_target hframe, hvalue]

end Qubits

theorem numQubits_registers (n : Network) :
    (registers n : Netlist α).numQubits = n.numInputs + n.numGates + n.numOutputs := by
  simp [registers, Netlist.addRegister, Netlist.numQubits, Netlist.empty, Nat.add_assoc]

def netlist (n : Network) : Netlist α :=
  { (registers n : Netlist α) with gates := circuit n (Layout.of n) }

theorem register_netlist (n : Network) :
    (netlist n : Netlist α).register "ancillae" = (Layout.of n).ancillae := by
  simp [netlist, registers, Netlist.register, Netlist.addRegister, Netlist.numQubits, Netlist.empty,
    Layout.of, List.filter_map, Function.comp_def]

theorem layout_eq_range (n : Network) :
    (Layout.of n).inputs ++ (Layout.of n).ancillae ++ (Layout.of n).outputs =
      List.range (netlist n : Netlist α).numQubits := by
  have hsize : (netlist n : Netlist α).numQubits = n.numInputs + n.numGates + n.numOutputs :=
    numQubits_registers n
  rw [hsize, List.range_add, List.range_add]
  rfl

theorem synthesize_eq {n : Network} (h : n.WellFormed) :
    synthesize n = .ok ((netlist n : Netlist α), Layout.of n) := by
  have hvalid : ∀ g ∈ (circuit n (Layout.of n) : List (Gate α)),
      g.Valid (registers n : Netlist α).numQubits := by
    rw [numQubits_registers]
    exact fun g hg => (fits_circuit h g hg).2
  rw [synthesize, Netlist.extend_of_valid hvalid]
  rfl

theorem synthesize_computes {n : Network} (hb : n.Built) :
    ∃ (netlist : Netlist α) (layout : Layout),
      synthesize n = .ok (netlist, layout) ∧
      netlist.isClassical = true ∧
      netlist.register "ancillae" = layout.ancillae ∧
      layout.inputs ++ layout.ancillae ++ layout.outputs = List.range netlist.numQubits ∧
      layout.inputs.length = n.numInputs ∧
      layout.outputs.length = n.numOutputs ∧
      (∀ s, ∀ q ∈ layout.inputs ++ layout.ancillae, (netlist.run s).1 q = s q) ∧
      ∀ s, (∀ q ∈ layout.ancillae, s q = false) →
        ∀ (k : Nat) (output : Output) (q : Nat), n.outputs[k]? = some output →
          layout.outputs[k]? = some q →
          (netlist.run s).1 q =
            (s q ^^ n.eval (fun i => s (layout.inputs.getD i 0)) output.signal) := by
  have h := hb.wellFormed
  have hinner : ∀ q ∈ (Layout.of n).inputs ++ (Layout.of n).ancillae,
      q < n.numInputs + n.numGates := by
    simp only [Layout.of, List.mem_append, List.mem_map, List.mem_range]
    rintro q (hq | ⟨j, hj, rfl⟩) <;> omega
  have hclassical : (netlist n : Netlist α).isClassical = true :=
    List.all_eq_true.mpr fun g hg => (fits_circuit h g hg).1
  refine ⟨netlist n, Layout.of n, synthesize_eq h, hclassical, register_netlist n,
    layout_eq_range n, by simp [Layout.of], by simp [Layout.of],
    fun s q hq => after_circuit_inner h s (hinner q hq), ?_⟩
  intro s hancillae k output q houtput hq
  have hclean : ∀ r, n.numInputs ≤ r → r < n.numInputs + n.numGates → s r = false := by
    intro r hle hlt
    refine hancillae r (List.mem_map.mpr ⟨r - n.numInputs, ?_, by omega⟩)
    rw [List.mem_range]
    omega
  have hassignment : n.values s = n.values fun i => s ((Layout.of n).inputs.getD i 0) :=
    h.values_congr fun k hk => by simp [Layout.of, hk]
  have hpair : (output, q) ∈ n.outputs.zip (Layout.of n).outputs :=
    List.mem_of_getElem? (List.getElem?_zip_eq_some.mpr ⟨houtput, hq⟩)
  rw [Network.eval, ← hassignment]
  exact after_circuit_output h hclean hpair

def interleaved : Network where
  nodes := #[.constant, .input 0, .input 1, .maj ⟨0, true⟩ ⟨1, false⟩ ⟨2, false⟩, .input 2,
    .xor ⟨3, false⟩ ⟨4, false⟩, .maj ⟨3, true⟩ ⟨4, false⟩ ⟨5, false⟩]
  inputs := [1, 2, 4]
  inputNames := ["a", "b", "c"]
  outputs := [⟨"m", ⟨6, false⟩⟩, ⟨"x", ⟨5, true⟩⟩]
  table := [(.maj ⟨3, true⟩ ⟨4, false⟩ ⟨5, false⟩, 6), (.xor ⟨3, false⟩ ⟨4, false⟩, 5),
    (.maj ⟨0, true⟩ ⟨1, false⟩ ⟨2, false⟩, 3)]

theorem interleaved_built : interleaved.Built := by
  have hinputs := (Network.Built.empty.createInput "a").createInput "b"
  have hgate := hinputs.createMaj (a := ⟨1, false⟩) (b := ⟨2, false⟩) (c := ⟨0, true⟩) rfl
  have hinput := hgate.createInput "c"
  have hxor := hinput.createXor (a := ⟨3, false⟩) (b := ⟨4, false⟩) rfl
  have hmaj := hxor.createMaj (a := ⟨3, true⟩) (b := ⟨5, false⟩) (c := ⟨4, false⟩) rfl
  have hfirst : Network.Built { interleaved with outputs := [⟨"m", ⟨6, false⟩⟩] } :=
    hmaj.createOutput (s := ⟨6, false⟩) rfl
  exact hfirst.createOutput (s := ⟨5, true⟩) rfl

theorem eval_interleaved (a : Nat → Bool) :
    interleaved.eval a ⟨6, false⟩ = (a 2 && !(a 0 || a 1)) := by
  simp only [Network.eval, Network.values, interleaved, Signal.value, List.foldl_toArray,
    List.foldl_cons, List.foldl_nil, Node.value]
  cases a 0 <;> cases a 1 <;> cases a 2 <;> rfl

theorem synthesize_computes_interleaved :
    ∃ (netlist : Netlist Nat) (layout : Layout),
      synthesize interleaved = .ok (netlist, layout) ∧
      ∀ s, (∀ q ∈ layout.ancillae, s q = false) → ∀ q, layout.outputs[0]? = some q →
        (netlist.run s).1 q = (s q ^^ (s (layout.inputs.getD 2 0) &&
          !(s (layout.inputs.getD 0 0) || s (layout.inputs.getD 1 0)))) := by
  obtain ⟨netlist, layout, hok, _, _, _, _, _, _, hcomputes⟩ :=
    synthesize_computes (α := Nat) interleaved_built
  refine ⟨netlist, layout, hok, fun s hclean q hq => ?_⟩
  rw [hcomputes s hclean 0 ⟨"m", ⟨6, false⟩⟩ q rfl hq, eval_interleaved]

end ReversibleSynthesis.Bennett
