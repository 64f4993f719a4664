import Mathlib.Data.List.Induction
import ReversibleSynthesis.Network.Simulation

namespace ReversibleSynthesis

namespace Network

inductive Built : Network → Prop
  | empty : Built empty
  | createInput {n : Network} (hb : Built n) (name : String) : Built (n.createInput name).2
  | createAnd {n n' : Network} {a b s : Signal} (hb : Built n)
      (h : n.createAnd a b = .ok (s, n')) : Built n'
  | createOr {n n' : Network} {a b s : Signal} (hb : Built n)
      (h : n.createOr a b = .ok (s, n')) : Built n'
  | createXor {n n' : Network} {a b s : Signal} (hb : Built n)
      (h : n.createXor a b = .ok (s, n')) : Built n'
  | createMaj {n n' : Network} {a b c s : Signal} (hb : Built n)
      (h : n.createMaj a b c = .ok (s, n')) : Built n'
  | createOutput {n n' : Network} {s : Signal} {name : String} (hb : Built n)
      (h : n.createOutput s name = .ok n') : Built n'

structure WellFormed (n : Network) : Prop where
  constant : ∀ i : Nat, n.nodes[i]? = some .constant ↔ i = 0
  inputs : ∀ k i : Nat, n.inputs[k]? = some i ↔ n.nodes[i]? = some (.input k)
  fanins : ∀ (i : Nat) (node : Node), n.nodes[i]? = some node → ∀ s ∈ node.fanins, s.node < i
  outputs : ∀ o ∈ n.outputs, o.signal.node < n.size
  table : ∀ (node : Node) (i : Nat), n.table.lookup node = some i → n.nodes[i]? = some node

def Extends (n n' : Network) : Prop :=
  n' = n ∨ ∃ node : Node, node.isGate = true ∧ (∀ s ∈ node.fanins, s.node < n.size) ∧
    n' = n.pushGate node

theorem share_extends {n : Network} {node : Node} (hgate : node.isGate = true)
    (hfanins : ∀ s ∈ node.fanins, s.node < n.size) : Extends n (n.share node).2 := by
  unfold share
  split
  · exact .inl rfl
  · exact .inr ⟨node, hgate, hfanins, rfl⟩

theorem check_bind_eq_ok {β : Type} {n : Network} {s : Signal} {k : Unit → Except InputError β}
    {r : β} (h : (n.check s >>= k) = .ok r) : s.node < n.size ∧ k () = .ok r := by
  unfold check at h
  split at h
  · next hlt => exact ⟨hlt, h⟩
  · cases h

end Network

theorem Signal.ordered_cases (a b : Signal) : ordered a b = (a, b) ∨ ordered a b = (b, a) := by
  unfold ordered
  split
  · exact .inl rfl
  · exact .inr rfl

theorem Signal.ordered3_cases (a b c : Signal) :
    ordered3 a b c ∈ [(a, b, c), (a, c, b), (b, a, c), (b, c, a), (c, a, b), (c, b, a)] := by
  unfold ordered3
  rcases ordered_cases a b with h | h <;> rw [h] <;> dsimp only
  · rcases ordered_cases b c with h | h <;> rw [h] <;> dsimp only
    · rcases ordered_cases a b with h | h <;> rw [h] <;> simp
    · rcases ordered_cases a c with h | h <;> rw [h] <;> simp
  · rcases ordered_cases a c with h | h <;> rw [h] <;> dsimp only
    · rcases ordered_cases b a with h | h <;> rw [h] <;> simp
    · rcases ordered_cases b c with h | h <;> rw [h] <;> simp

theorem Signal.mem_ordered3 (a b c : Signal) :
    ∀ s ∈ [(ordered3 a b c).1, (ordered3 a b c).2.1, (ordered3 a b c).2.2], s ∈ [a, b, c] := by
  have hcases := ordered3_cases a b c
  simp only [List.mem_cons, List.not_mem_nil, or_false] at hcases
  rcases hcases with h | h | h | h | h | h <;> rw [h] <;> simp

namespace Network

theorem createAnd_eq_ok {n : Network} {a b : Signal} {r : Signal × Network}
    (h : n.createAnd a b = .ok r) :
    a.node < n.size ∧ b.node < n.size ∧
      r = n.andOrdered (Signal.ordered a b).1 (Signal.ordered a b).2 := by
  unfold createAnd at h
  obtain ⟨ha, h⟩ := check_bind_eq_ok h
  obtain ⟨hb, h⟩ := check_bind_eq_ok h
  exact ⟨ha, hb, (Except.ok.inj h).symm⟩

theorem createXor_eq_ok {n : Network} {a b : Signal} {r : Signal × Network}
    (h : n.createXor a b = .ok r) :
    a.node < n.size ∧ b.node < n.size ∧
      r = ((n.xorOrdered (Signal.ordered a.regular b.regular).1
          (Signal.ordered a.regular b.regular).2).1.complementIf (a.complemented != b.complemented),
        (n.xorOrdered (Signal.ordered a.regular b.regular).1
          (Signal.ordered a.regular b.regular).2).2) := by
  unfold createXor at h
  obtain ⟨ha, h⟩ := check_bind_eq_ok h
  obtain ⟨hb, h⟩ := check_bind_eq_ok h
  exact ⟨ha, hb, (Except.ok.inj h).symm⟩

theorem createMaj_eq_ok {n : Network} {a b c : Signal} {r : Signal × Network}
    (h : n.createMaj a b c = .ok r) :
    a.node < n.size ∧ b.node < n.size ∧ c.node < n.size ∧
      r = n.majOrdered (Signal.ordered3 a b c).1 (Signal.ordered3 a b c).2.1
        (Signal.ordered3 a b c).2.2 := by
  unfold createMaj at h
  obtain ⟨ha, h⟩ := check_bind_eq_ok h
  obtain ⟨hb, h⟩ := check_bind_eq_ok h
  obtain ⟨hc, h⟩ := check_bind_eq_ok h
  exact ⟨ha, hb, hc, (Except.ok.inj h).symm⟩

theorem andOrdered_extends {n : Network} {a b : Signal} (ha : a.node < n.size)
    (hb : b.node < n.size) : Extends n (n.andOrdered a b).2 := by
  unfold andOrdered
  split
  · exact .inl rfl
  · split
    · exact .inl rfl
    · split
      · exact .inl rfl
      · exact share_extends rfl (by simp [Node.fanins, ha, hb])

theorem xorOrdered_extends {n : Network} {a b : Signal} (ha : a.node < n.size)
    (hb : b.node < n.size) : Extends n (n.xorOrdered a b).2 := by
  unfold xorOrdered
  split
  · exact .inl rfl
  · split
    · exact .inl rfl
    · exact share_extends rfl (by simp [Node.fanins, ha, hb])

theorem majOrdered_extends {n : Network} {a b c : Signal} (ha : a.node < n.size)
    (hb : b.node < n.size) (hc : c.node < n.size) : Extends n (n.majOrdered a b c).2 := by
  unfold majOrdered
  split
  · exact .inl rfl
  · split
    · exact .inl rfl
    · split
      · exact .inl rfl
      · split
        · exact .inl rfl
        · split
          · exact .inl rfl
          · exact share_extends rfl (by simp [Node.fanins, ha, hb, hc])

theorem createAnd_extends {n n' : Network} {a b s : Signal} (h : n.createAnd a b = .ok (s, n')) :
    Extends n n' := by
  obtain ⟨ha, hb, heq⟩ := createAnd_eq_ok h
  rw [show n' = (n.andOrdered _ _).2 from congrArg Prod.snd heq]
  rcases Signal.ordered_cases a b with ho | ho <;> rw [ho]
  · exact andOrdered_extends ha hb
  · exact andOrdered_extends hb ha

theorem createOr_extends {n n' : Network} {a b s : Signal} (h : n.createOr a b = .ok (s, n')) :
    Extends n n' := by
  unfold createOr at h
  cases hand : n.createAnd a.complement b.complement with
  | error e => rw [hand] at h; cases h
  | ok r =>
    rw [hand] at h
    cases h
    exact createAnd_extends hand

theorem createXor_extends {n n' : Network} {a b s : Signal} (h : n.createXor a b = .ok (s, n')) :
    Extends n n' := by
  obtain ⟨ha, hb, heq⟩ := createXor_eq_ok h
  rw [show n' = (n.xorOrdered _ _).2 from congrArg Prod.snd heq]
  rcases Signal.ordered_cases a.regular b.regular with ho | ho <;> rw [ho]
  · exact xorOrdered_extends ha hb
  · exact xorOrdered_extends hb ha

theorem createMaj_extends {n n' : Network} {a b c s : Signal}
    (h : n.createMaj a b c = .ok (s, n')) : Extends n n' := by
  obtain ⟨ha, hb, hc, heq⟩ := createMaj_eq_ok h
  rw [show n' = (n.majOrdered _ _ _).2 from congrArg Prod.snd heq]
  have hlt : ∀ s ∈ [a, b, c], s.node < n.size := by simp [ha, hb, hc]
  have hmem := fun s hs => hlt s (Signal.mem_ordered3 a b c s hs)
  exact majOrdered_extends (hmem _ (by simp)) (hmem _ (by simp)) (hmem _ (by simp))

theorem getElem?_push (n : Network) (node : Node) (i : Nat) :
    (n.push node).nodes[i]? = if i = n.size then some node else n.nodes[i]? := by
  simp only [push, Array.getElem?_push]
  rfl

theorem lt_size_of_getElem? {n : Network} {i : Nat} {node : Node}
    (h : n.nodes[i]? = some node) : i < n.size := by
  by_contra hi
  rw [Array.getElem?_eq_none (Nat.le_of_not_lt hi)] at h
  cases h

theorem WellFormed.push {n : Network} (h : n.WellFormed) {node : Node} (hne : node ≠ .constant)
    (hfanins : ∀ s ∈ node.fanins, s.node < n.size) {inputs : List Nat} {names : List String}
    (hinputs : ∀ k i : Nat, inputs[k]? = some i ↔ (n.push node).nodes[i]? = some (.input k))
    {table : List (Node × Nat)}
    (htable : ∀ (node' : Node) (i : Nat), table.lookup node' = some i →
      (n.push node).nodes[i]? = some node') :
    ({ n.push node with inputs := inputs, inputNames := names, table := table } :
      Network).WellFormed := by
  refine ⟨fun i => ?_, hinputs, fun i node' hi s hs => ?_, fun o ho => ?_, htable⟩
  · change (n.push node).nodes[i]? = _ ↔ _
    rw [getElem?_push]
    split
    · next hi =>
      have hpos := lt_size_of_getElem? ((h.constant 0).mpr rfl)
      exact ⟨fun heq => absurd (Option.some.inj heq) hne, fun h0 => by omega⟩
    · exact h.constant i
  · change (n.push node).nodes[i]? = _ at hi
    rw [getElem?_push] at hi
    split at hi
    · next heq =>
      cases hi
      exact heq ▸ hfanins s hs
    · exact h.fanins i node' hi s hs
  · have hlt := h.outputs o ho
    simp only [size, Network.push, Array.size_push] at hlt ⊢
    omega

theorem WellFormed.inputs_gate {n : Network} (h : n.WellFormed) {node : Node}
    (hgate : node.isGate = true) (k i : Nat) :
    n.inputs[k]? = some i ↔ (n.push node).nodes[i]? = some (.input k) := by
  rw [h.inputs, getElem?_push]
  split
  · next hi =>
    constructor
    · intro hk
      exact absurd (lt_size_of_getElem? hk) (by omega)
    · intro heq
      cases heq
      cases hgate
  · rfl

theorem WellFormed.inputs_input {n : Network} (h : n.WellFormed) (k i : Nat) :
    (n.inputs ++ [n.size])[k]? = some i ↔
      (n.push (.input n.numInputs)).nodes[i]? = some (.input k) := by
  rw [getElem?_push, List.getElem?_append]
  split
  · next hk =>
    rw [h.inputs]
    split
    · next hi =>
      constructor
      · intro heq
        exact absurd (lt_size_of_getElem? heq) (by omega)
      · intro heq
        cases heq
        exact absurd hk (Nat.lt_irrefl _)
    · rfl
  · next hk =>
    have hold : n.nodes[i]? ≠ some (.input k) := by
      intro heq
      have hin := (h.inputs k i).mpr heq
      rw [List.getElem?_eq_none (Nat.le_of_not_lt hk)] at hin
      cases hin
    have hlast : [n.size][k - n.inputs.length]? = some i ↔ k = n.inputs.length ∧ i = n.size := by
      rcases Nat.lt_or_eq_of_le (Nat.le_of_not_lt hk) with hlt | heq
      · rw [List.getElem?_eq_none (by simp; omega)]
        simp [Nat.ne_of_gt hlt]
      · simp [heq, eq_comm]
    rw [hlast]
    split
    · next hi =>
      simp only [hi, and_true, Option.some.injEq, Node.input.injEq]
      exact eq_comm
    · next hi => simp [hi, hold]

theorem getElem?_push_of_eq_some {n : Network} {i : Nat} {old : Node} (node : Node)
    (h : n.nodes[i]? = some old) : (n.push node).nodes[i]? = some old := by
  rw [getElem?_push, if_neg (Nat.ne_of_lt (lt_size_of_getElem? h))]
  exact h

theorem lookup_pushGate (n : Network) (node node' : Node) :
    (n.pushGate node).table.lookup node' =
      if node' = node then some n.size else n.table.lookup node' := by
  rw [pushGate, List.lookup_cons]
  by_cases h : node' = node
  · rw [if_pos h, h, beq_self_eq_true]
  · rw [if_neg h, beq_eq_false_iff_ne.mpr h]

theorem WellFormed.table_pushGate {n : Network} (h : n.WellFormed) (node node' : Node) (i : Nat)
    (hi : (n.pushGate node).table.lookup node' = some i) :
    (n.push node).nodes[i]? = some node' := by
  rw [lookup_pushGate] at hi
  split at hi
  · next heq =>
    rw [← Option.some.inj hi, getElem?_push, if_pos rfl, heq]
  · exact getElem?_push_of_eq_some node (h.table node' i hi)

theorem WellFormed.extend {n n' : Network} (h : n.WellFormed) (hext : Extends n n') :
    n'.WellFormed := by
  obtain rfl | ⟨node, hgate, hfanins, rfl⟩ := hext
  · exact h
  · have hne : node ≠ .constant := by
      rintro rfl
      cases hgate
    exact h.push hne hfanins (h.inputs_gate hgate) (h.table_pushGate node)

theorem WellFormed.createInput {n : Network} (h : n.WellFormed) (name : String) :
    (n.createInput name).2.WellFormed := by
  have hne : Node.input n.numInputs ≠ .constant := nofun
  exact h.push hne nofun h.inputs_input fun node i hi =>
    getElem?_push_of_eq_some _ (h.table node i hi)

theorem WellFormed.createOutput {n n' : Network} {s : Signal} {name : String} (h : n.WellFormed)
    (hout : n.createOutput s name = .ok n') : n'.WellFormed := by
  obtain ⟨hs, hout⟩ := check_bind_eq_ok hout
  cases hout
  refine ⟨h.constant, h.inputs, h.fanins, ?_, h.table⟩
  intro o ho
  rcases List.mem_append.mp ho with ho | ho
  · exact h.outputs o ho
  · rw [List.mem_singleton.mp ho]; exact hs

theorem WellFormed.empty : Network.empty.WellFormed := by
  constructor
  · intro i
    cases i with
    | zero => simp [Network.empty]
    | succ i => simp [Network.empty]
  · intro k i
    cases i with
    | zero => simp [Network.empty]
    | succ i => simp [Network.empty]
  · intro i node hi
    cases i with
    | zero => cases hi; exact nofun
    | succ i => simp [Network.empty] at hi
  · exact nofun
  · exact nofun

theorem Built.wellFormed {n : Network} (h : n.Built) : n.WellFormed := by
  induction h with
  | empty => exact .empty
  | createInput _ name ih => exact ih.createInput name
  | createAnd _ h ih => exact ih.extend (createAnd_extends h)
  | createOr _ h ih => exact ih.extend (createOr_extends h)
  | createXor _ h ih => exact ih.extend (createXor_extends h)
  | createMaj _ h ih => exact ih.extend (createMaj_extends h)
  | createOutput _ h ih => exact ih.createOutput h

section Gates

variable (n : Network)

theorem mem_gates (i : Nat) (node : Node) :
    (i, node) ∈ n.gates ↔ n.nodes[i]? = some node ∧ node.isGate = true := by
  rw [gates, List.mem_filter, List.mem_iff_getElem?]
  refine and_congr_left fun _ => ⟨?_, fun h => ⟨i, ?_⟩⟩
  · rintro ⟨j, hj⟩
    obtain ⟨hrange, hnode⟩ := List.getElem?_zip_eq_some.mp hj
    obtain ⟨_, rfl⟩ := List.getElem?_eq_some_iff.mp hrange
    rw [List.getElem_range]
    rwa [Array.getElem?_toList] at hnode
  · refine List.getElem?_zip_eq_some.mpr ⟨List.getElem?_range (lt_size_of_getElem? h), ?_⟩
    rwa [Array.getElem?_toList]

theorem pairwise_gates : n.gates.Pairwise fun e e' => e.1 < e'.1 := by
  refine List.Pairwise.filter _ ?_
  have hfst : ((List.range n.size).zip n.nodes.toList).map Prod.fst = List.range n.size := by
    rw [List.map_fst_zip]
    simp [size]
  rw [← List.pairwise_map, hfst]
  exact List.pairwise_lt_range

theorem length_gates : n.gates.length = n.numGates := by
  have hsnd : ((List.range n.size).zip n.nodes.toList).map Prod.snd = n.nodes.toList := by
    rw [List.map_snd_zip]
    simp [size]
  calc
    n.gates.length = ((List.range n.size).zip n.nodes.toList).countP (Node.isGate ∘ Prod.snd) :=
      List.countP_eq_length_filter.symm
    _ = (((List.range n.size).zip n.nodes.toList).map Prod.snd).countP Node.isGate :=
      List.countP_map.symm
    _ = n.numGates := by rw [hsnd, Array.countP_toList, numGates]

end Gates

def valuesOf (assignment : Nat → Bool) (nodes : List Node) : Array Bool :=
  nodes.foldl (fun values node => values.push (node.value assignment values)) #[]

theorem values_eq_valuesOf (n : Network) (assignment : Nat → Bool) :
    n.values assignment = valuesOf assignment n.nodes.toList := by
  rw [values, valuesOf, Array.foldl_toList]

theorem valuesOf_concat (assignment : Nat → Bool) (nodes : List Node) (node : Node) :
    valuesOf assignment (nodes ++ [node]) =
      (valuesOf assignment nodes).push (node.value assignment (valuesOf assignment nodes)) := by
  simp [valuesOf]

theorem size_valuesOf (assignment : Nat → Bool) (nodes : List Node) :
    (valuesOf assignment nodes).size = nodes.length := by
  induction nodes using List.reverseRecOn with
  | nil => rfl
  | append_singleton nodes node ih => rw [valuesOf_concat, Array.size_push, ih]; simp

theorem getD_valuesOf_append (assignment : Nat → Bool) (nodes rest : List Node) {i : Nat}
    (hi : i < nodes.length) :
    (valuesOf assignment (nodes ++ rest)).getD i false = (valuesOf assignment nodes).getD i false := by
  induction rest using List.reverseRecOn with
  | nil => rw [List.append_nil]
  | append_singleton rest node ih =>
    rw [← List.append_assoc, valuesOf_concat, ← ih]
    have hlt : i < (valuesOf assignment (nodes ++ rest)).size := by
      rw [size_valuesOf, List.length_append]; omega
    simp [Array.getD_eq_getD_getElem?, Array.getElem?_push, Nat.ne_of_lt hlt]

theorem valuesOf_congr {assignment assignment' : Nat → Bool} {nodes : List Node}
    (h : ∀ k, Node.input k ∈ nodes → assignment k = assignment' k) :
    valuesOf assignment nodes = valuesOf assignment' nodes := by
  induction nodes using List.reverseRecOn with
  | nil => rfl
  | append_singleton nodes node ih =>
    rw [valuesOf_concat, valuesOf_concat, ih fun k hk => h k (by simp [hk])]
    cases node with
    | input k => simp only [Node.value, h k (by simp)]
    | _ => rfl

end Network

theorem Node.value_congr {assignment : Nat → Bool} {values values' : Array Bool} {node : Node}
    (h : ∀ s ∈ node.fanins, values.getD s.node false = values'.getD s.node false) :
    node.value assignment values = node.value assignment values' := by
  have hsignal : ∀ s ∈ node.fanins, s.value values = s.value values' := by
    intro s hs
    rw [Signal.value, Signal.value, h s hs]
  cases node with
  | constant => rfl
  | input k => rfl
  | and a b => simp only [Node.value, hsignal a (by simp [fanins]), hsignal b (by simp [fanins])]
  | xor a b => simp only [Node.value, hsignal a (by simp [fanins]), hsignal b (by simp [fanins])]
  | maj a b c =>
    simp only [Node.value, hsignal a (by simp [fanins]), hsignal b (by simp [fanins]),
      hsignal c (by simp [fanins])]

theorem Network.WellFormed.lt_numInputs {n : Network} (h : n.WellFormed) {i k : Nat}
    (hi : n.nodes[i]? = some (.input k)) : k < n.numInputs :=
  (List.getElem?_eq_some_iff.mp ((h.inputs k i).mpr hi)).1

theorem Network.WellFormed.values_congr {n : Network} (h : n.WellFormed)
    {assignment assignment' : Nat → Bool}
    (hsame : ∀ k < n.numInputs, assignment k = assignment' k) :
    n.values assignment = n.values assignment' := by
  rw [values_eq_valuesOf, values_eq_valuesOf]
  refine valuesOf_congr fun k hk => hsame k ?_
  obtain ⟨i, hi⟩ := List.mem_iff_getElem?.mp hk
  rw [Array.getElem?_toList] at hi
  exact h.lt_numInputs hi

theorem Network.WellFormed.values_eq {n : Network} (h : n.WellFormed) (assignment : Nat → Bool)
    {i : Nat} {node : Node} (hi : n.nodes[i]? = some node) :
    (n.values assignment).getD i false = node.value assignment (n.values assignment) := by
  have hi' : n.nodes.toList[i]? = some node := by rwa [Array.getElem?_toList]
  obtain ⟨before, rest, hsplit, hlen⟩ : ∃ before rest,
      n.nodes.toList = before ++ [node] ++ rest ∧ before.length = i := by
    obtain ⟨hlt, heq⟩ := List.getElem?_eq_some_iff.mp hi'
    refine ⟨n.nodes.toList.take i, n.nodes.toList.drop (i + 1), ?_,
      List.length_take_of_le (Nat.le_of_lt hlt)⟩
    rw [List.append_assoc, List.singleton_append, ← heq, List.getElem_cons_drop,
      List.take_append_drop]
  have hvalue : ∀ j, j < i → (n.values assignment).getD j false =
      (valuesOf assignment before).getD j false := by
    intro j hj
    rw [values_eq_valuesOf, hsplit, List.append_assoc,
      getD_valuesOf_append _ _ _ (hlen.symm ▸ hj)]
  have hnode : (n.values assignment).getD i false =
      node.value assignment (valuesOf assignment before) := by
    rw [values_eq_valuesOf, hsplit, getD_valuesOf_append _ _ _ (by simp [hlen]), valuesOf_concat]
    have hsize : (valuesOf assignment before).size = i := (size_valuesOf _ _).trans hlen
    rw [Array.getD_eq_getD_getElem?, Array.getElem?_push, if_pos hsize.symm, Option.getD_some]
  rw [hnode]
  exact Node.value_congr fun s hs => (hvalue s.node (h.fanins i node hi s hs)).symm

end ReversibleSynthesis
