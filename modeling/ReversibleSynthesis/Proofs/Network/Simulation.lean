import ReversibleSynthesis.Proofs.Except
import ReversibleSynthesis.Proofs.Network.Construction
import ReversibleSynthesis.Proofs.TruthTable

namespace ReversibleSynthesis

namespace TruthTable

structure Tabulates (t : TruthTable) (numVars : Nat) (f : Nat → Bool) : Prop where
  packed : t.Packed
  arity : t.numVars = numVars
  bit_eq : ∀ x < 2 ^ numVars, t.bit x = f x

section Tabulates

variable {numVars : Nat} {a b t : TruthTable} {f g : Nat → Bool}

theorem exists_const0 (hn : numVars ≤ maxVars) :
    ∃ t, const0 numVars = .ok t ∧ t.Tabulates numVars fun _ => false := by
  have hok : const0 numVars = .ok ⟨numVars, Array.replicate (wordCount numVars) 0⟩ := by
    rw [const0, checkArity, if_pos hn]
    rfl
  refine ⟨_, hok, packed_const0 hok, rfl, fun x _ => bit_of_isConst0 ?_ x⟩
  rw [isConst0, Array.all_eq_true]
  simp

theorem exists_nthVar {var : Nat} (hn : numVars ≤ maxVars) (hvar : var < numVars) :
    ∃ t, nthVar numVars var = .ok t ∧ t.Tabulates numVars fun x => x.testBit var := by
  have hok : nthVar numVars var = .ok (tabulate numVars fun x => x.testBit var) := by
    rw [nthVar, if_pos hvar, ofFn, checkArity, if_pos hn]
    rfl
  exact ⟨_, hok, packed_nthVar hok, rfl, fun x hx => bit_tabulate _ hx⟩

theorem Tabulates.numVars_eq (ha : a.Tabulates numVars f) (hb : b.Tabulates numVars g) :
    a.numVars = b.numVars :=
  ha.arity.trans hb.arity.symm

theorem Tabulates.and (ha : a.Tabulates numVars f) (hb : b.Tabulates numVars g) :
    (a.and b).Tabulates numVars fun x => f x && g x := by
  refine ⟨ha.packed.and hb.packed (ha.numVars_eq hb), ha.arity, fun x hx => ?_⟩
  rw [ha.packed.bit_and hb.packed.toSized (ha.numVars_eq hb), ha.bit_eq x hx, hb.bit_eq x hx]

theorem Tabulates.or (ha : a.Tabulates numVars f) (hb : b.Tabulates numVars g) :
    (a.or b).Tabulates numVars fun x => f x || g x := by
  refine ⟨ha.packed.or hb.packed (ha.numVars_eq hb), ha.arity, fun x hx => ?_⟩
  rw [ha.packed.bit_or hb.packed.toSized (ha.numVars_eq hb), ha.bit_eq x hx, hb.bit_eq x hx]

theorem Tabulates.xor (ha : a.Tabulates numVars f) (hb : b.Tabulates numVars g) :
    (a.xor b).Tabulates numVars fun x => f x ^^ g x := by
  refine ⟨ha.packed.xor hb.packed (ha.numVars_eq hb), ha.arity, fun x hx => ?_⟩
  rw [ha.packed.bit_xor hb.packed.toSized (ha.numVars_eq hb), ha.bit_eq x hx, hb.bit_eq x hx]

theorem Tabulates.complement (ht : t.Tabulates numVars f) :
    t.complement.Tabulates numVars fun x => !f x := by
  refine ⟨ht.packed.complement, ht.arity, fun x hx => ?_⟩
  rw [ht.packed.bit_complement, ht.arity, decide_eq_true hx, Bool.true_and, ht.bit_eq x hx]

theorem Tabulates.eq_iff (ha : a.Tabulates numVars f) (hb : b.Tabulates numVars g) :
    a = b ↔ ∀ x < 2 ^ numVars, f x = g x := by
  constructor
  · rintro rfl x hx
    rw [← ha.bit_eq x hx, hb.bit_eq x hx]
  · intro h
    refine ha.packed.eq_of_bit_eq hb.packed (ha.numVars_eq hb) fun x hx => ?_
    rw [ha.arity] at hx
    rw [ha.bit_eq x hx, hb.bit_eq x hx, h x hx]

theorem Tabulates.bit?_eq (ht : t.Tabulates numVars f) {x : Nat} (hx : x < 2 ^ numVars) :
    t.bit? x = some (f x) := by
  rw [ht.packed.bit?_eq (ht.arity.symm ▸ hx), ht.bit_eq x hx]

end Tabulates

end TruthTable

def Agree (numVars : Nat) (tables : Array TruthTable) (values : Nat → Array Bool) : Prop :=
  ∀ (i : Nat) (t : TruthTable), tables[i]? = some t →
    t.Tabulates numVars fun x => (values x).getD i false

section Tables

variable {numVars : Nat} {tables : Array TruthTable} {values : Nat → Array Bool}

theorem Signal.exists_table {s : Signal} (hs : s.node < tables.size)
    (h : Agree numVars tables values) :
    ∃ t, s.table tables = .ok t ∧ t.Tabulates numVars fun x => s.value (values x) := by
  have ht := h s.node _ (Array.getElem?_eq_getElem hs)
  obtain ⟨node, complemented⟩ := s
  cases complemented with
  | false =>
    refine ⟨tables[node], by simp [Signal.table, hs], ht.packed, ht.arity, fun x hx => ?_⟩
    rw [ht.bit_eq x hx, Signal.value, Bool.xor_false]
  | true =>
    have hc := ht.complement
    refine ⟨tables[node].complement, by simp [Signal.table, hs], hc.packed, hc.arity, fun x hx => ?_⟩
    rw [hc.bit_eq x hx, Signal.value, Bool.xor_true]

theorem Node.exists_table {node : Node} (hn : numVars ≤ TruthTable.maxVars)
    (h : Agree numVars tables values)
    (hfanins : ∀ s ∈ node.fanins, s.node < tables.size)
    (hinput : ∀ k, node = .input k → k < numVars) :
    ∃ t, node.table numVars tables = .ok t ∧
      t.Tabulates numVars fun x => node.value x.testBit (values x) := by
  have hsignal := fun s hs => Signal.exists_table (hfanins s hs) h
  cases node with
  | constant =>
    obtain ⟨t, hok, ht⟩ := TruthTable.exists_const0 hn
    exact ⟨t, by rw [Node.table, hok]; rfl, ht⟩
  | input k =>
    obtain ⟨t, hok, ht⟩ := TruthTable.exists_nthVar hn (hinput k rfl)
    exact ⟨t, by rw [Node.table, hok]; rfl, ht⟩
  | and a b =>
    obtain ⟨ta, hoka, hta⟩ := hsignal a (by simp [Node.fanins])
    obtain ⟨tb, hokb, htb⟩ := hsignal b (by simp [Node.fanins])
    exact ⟨ta.and tb, by rw [Node.table, hoka, hokb]; rfl, hta.and htb⟩
  | xor a b =>
    obtain ⟨ta, hoka, hta⟩ := hsignal a (by simp [Node.fanins])
    obtain ⟨tb, hokb, htb⟩ := hsignal b (by simp [Node.fanins])
    exact ⟨ta.xor tb, by rw [Node.table, hoka, hokb]; rfl, hta.xor htb⟩
  | maj a b c =>
    obtain ⟨ta, hoka, hta⟩ := hsignal a (by simp [Node.fanins])
    obtain ⟨tb, hokb, htb⟩ := hsignal b (by simp [Node.fanins])
    obtain ⟨tc, hokc, htc⟩ := hsignal c (by simp [Node.fanins])
    exact ⟨.majority ta tb tc, by rw [Node.table, hoka, hokb, hokc]; rfl,
      ((hta.and htb).or (hta.and htc)).or (htb.and htc)⟩

end Tables

namespace Network

def tablesOf (numVars : Nat) (nodes : List Node) : Except SimulationError (Array TruthTable) :=
  nodes.foldlM (fun tables node => return tables.push (← node.table numVars tables)) #[]

theorem nodeTables_eq_tablesOf (n : Network) :
    n.nodeTables = tablesOf n.numInputs n.nodes.toList := by
  rw [nodeTables, tablesOf, Array.foldlM_toList]

theorem tablesOf_concat (numVars : Nat) (nodes : List Node) (node : Node) :
    tablesOf numVars (nodes ++ [node]) = do
      let tables ← tablesOf numVars nodes
      return tables.push (← node.table numVars tables) := by
  simp [tablesOf]

theorem agree_push {numVars : Nat} {tables : Array TruthTable} {nodes : List Node} {node : Node}
    {t : TruthTable} (h : Agree numVars tables fun x => valuesOf x.testBit nodes)
    (hsize : tables.size = nodes.length)
    (ht : t.Tabulates numVars fun x => node.value x.testBit (valuesOf x.testBit nodes)) :
    Agree numVars (tables.push t) fun x => valuesOf x.testBit (nodes ++ [node]) := by
  intro i u hu
  rw [Array.getElem?_push] at hu
  split at hu
  · next hi =>
    cases hu
    have hlast : ∀ x : Nat, (valuesOf x.testBit (nodes ++ [node])).getD i false =
        node.value x.testBit (valuesOf x.testBit nodes) := by
      intro x
      have hvalues : i = (valuesOf x.testBit nodes).size := by rw [hi, hsize, size_valuesOf]
      rw [valuesOf_concat, Array.getD_eq_getD_getElem?, Array.getElem?_push, if_pos hvalues,
        Option.getD_some]
    simpa only [hlast] using ht
  · next hi =>
    have hlt : i < nodes.length := by
      have := (Array.getElem?_eq_some_iff.mp hu).1
      omega
    simpa only [getD_valuesOf_append _ _ _ hlt] using h i u hu

theorem exists_tablesOf {numVars : Nat} {nodes : List Node} (hn : numVars ≤ TruthTable.maxVars)
    (hfanins : ∀ (i : Nat) (node : Node), nodes[i]? = some node → ∀ s ∈ node.fanins, s.node < i)
    (hinput : ∀ k, Node.input k ∈ nodes → k < numVars) :
    ∃ tables, tablesOf numVars nodes = .ok tables ∧ tables.size = nodes.length ∧
      Agree numVars tables fun x => valuesOf x.testBit nodes := by
  induction nodes using List.reverseRecOn with
  | nil => exact ⟨#[], rfl, rfl, nofun⟩
  | append_singleton nodes node ih =>
    have hinit : ∀ (i : Nat) (node' : Node), nodes[i]? = some node' →
        ∀ s ∈ node'.fanins, s.node < i := fun i node' hi =>
      hfanins i node' ((List.getElem?_append_left (List.getElem?_eq_some_iff.mp hi).1).trans hi)
    obtain ⟨tables, hok, hsize, hagree⟩ := ih hinit fun k hk => hinput k (by simp [hk])
    have hbelow : ∀ s ∈ node.fanins, s.node < tables.size :=
      fun s hs => hsize ▸ hfanins nodes.length node (by simp) s hs
    obtain ⟨t, ht, htab⟩ := Node.exists_table hn hagree hbelow
      (fun k hk => hinput k (by simp [hk]))
    refine ⟨tables.push t, ?_, by simp [hsize], agree_push hagree hsize htab⟩
    rw [tablesOf_concat, hok]
    change (do return tables.push (← node.table numVars tables)) = _
    rw [ht]
    rfl

theorem WellFormed.exists_nodeTables {n : Network} (h : n.WellFormed)
    (hn : n.numInputs ≤ TruthTable.maxVars) :
    ∃ tables, n.nodeTables = .ok tables ∧ tables.size = n.size ∧
      Agree n.numInputs tables fun x => n.values x.testBit := by
  have hfanins : ∀ (i : Nat) (node : Node), n.nodes.toList[i]? = some node →
      ∀ s ∈ node.fanins, s.node < i := by
    simpa only [Array.getElem?_toList] using h.fanins
  have hinput : ∀ k, Node.input k ∈ n.nodes.toList → k < n.numInputs := by
    intro k hk
    obtain ⟨i, hi⟩ := List.mem_iff_getElem?.mp hk
    rw [Array.getElem?_toList] at hi
    exact h.lt_numInputs hi
  simpa only [nodeTables_eq_tablesOf, values_eq_valuesOf, Array.length_toList, size] using
    exists_tablesOf hn hfanins hinput

theorem WellFormed.nodeTables_eq_error {n : Network} (h : n.WellFormed)
    (hn : TruthTable.maxVars < n.numInputs) :
    n.nodeTables = .error (.invalid (.tooManyVariables n.numInputs TruthTable.maxVars)) := by
  have hfirst : n.nodes.toList[0]? = some .constant := by
    rw [Array.getElem?_toList]
    exact (h.constant 0).mpr rfl
  have hconst : TruthTable.const0 n.numInputs =
      .error (.tooManyVariables n.numInputs TruthTable.maxVars) := by
    rw [TruthTable.const0, TruthTable.checkArity, if_neg (Nat.not_le.mpr hn)]
    rfl
  rw [nodeTables_eq_tablesOf]
  cases hnodes : n.nodes.toList with
  | nil =>
    rw [hnodes] at hfirst
    cases hfirst
  | cons node nodes =>
    rw [hnodes] at hfirst
    cases hfirst
    rw [tablesOf, List.foldlM_cons, Node.table, hconst]
    rfl

end Network

inductive Evaluates (n : Network) (x : Nat → Bool) : Signal → Bool → Prop
  | constant {i : Nat} (hi : n.nodes[i]? = some .constant) : Evaluates n x ⟨i, false⟩ false
  | input {i k : Nat} (hi : n.nodes[i]? = some (.input k)) : Evaluates n x ⟨i, false⟩ (x k)
  | and {i : Nat} {a b : Signal} {p q : Bool} (hi : n.nodes[i]? = some (.and a b))
      (ha : Evaluates n x a p) (hb : Evaluates n x b q) : Evaluates n x ⟨i, false⟩ (p && q)
  | xor {i : Nat} {a b : Signal} {p q : Bool} (hi : n.nodes[i]? = some (.xor a b))
      (ha : Evaluates n x a p) (hb : Evaluates n x b q) : Evaluates n x ⟨i, false⟩ (p ^^ q)
  | maj {i : Nat} {a b c : Signal} {p q r : Bool} (hi : n.nodes[i]? = some (.maj a b c))
      (ha : Evaluates n x a p) (hb : Evaluates n x b q) (hc : Evaluates n x c r) :
      Evaluates n x ⟨i, false⟩ ((p && q) || (p && r) || (q && r))
  | complement {i : Nat} {p : Bool} (h : Evaluates n x ⟨i, false⟩ p) : Evaluates n x ⟨i, true⟩ !p

namespace Network

theorem WellFormed.eval_node {n : Network} (h : n.WellFormed) (x : Nat → Bool) {i : Nat} {node : Node}
    (hi : n.nodes[i]? = some node) : n.eval x ⟨i, false⟩ = node.value x (n.values x) := by
  simp only [eval, Signal.value, h.values_eq x hi, Bool.xor_false]

theorem WellFormed.eval_of_evaluates {n : Network} (h : n.WellFormed) {x : Nat → Bool} {s : Signal}
    {v : Bool} (hv : Evaluates n x s v) : n.eval x s = v := by
  induction hv with
  | constant hi => exact h.eval_node x hi
  | input hi => exact h.eval_node x hi
  | and hi _ _ iha ihb =>
    rw [h.eval_node x hi, ← iha, ← ihb]
    rfl
  | xor hi _ _ iha ihb =>
    rw [h.eval_node x hi, ← iha, ← ihb]
    rfl
  | maj hi _ _ _ iha ihb ihc =>
    rw [h.eval_node x hi, ← iha, ← ihb, ← ihc]
    rfl
  | complement _ ih =>
    rw [← ih]
    exact n.eval_complement x ⟨_, false⟩

theorem WellFormed.evaluates_eval {n : Network} (h : n.WellFormed) (x : Nat → Bool) {s : Signal}
    (hs : s.node < n.size) : Evaluates n x s (n.eval x s) := by
  obtain ⟨i, complemented⟩ := s
  induction i using Nat.strongRecOn generalizing complemented with
  | ind i ih =>
    obtain ⟨node, hi⟩ : ∃ node, n.nodes[i]? = some node := ⟨_, Array.getElem?_eq_getElem hs⟩
    have hfanin : ∀ s ∈ node.fanins, Evaluates n x s (n.eval x s) := fun s hf =>
      have hlt := h.fanins i node hi s hf
      ih s.node hlt s.complemented (Nat.lt_trans hlt hs)
    have hdirect : Evaluates n x ⟨i, false⟩ (n.eval x ⟨i, false⟩) := by
      rw [h.eval_node x hi]
      cases node with
      | constant => exact .constant hi
      | input k => exact .input hi
      | and a b =>
        exact .and hi (hfanin a (by simp [Node.fanins])) (hfanin b (by simp [Node.fanins]))
      | xor a b =>
        exact .xor hi (hfanin a (by simp [Node.fanins])) (hfanin b (by simp [Node.fanins]))
      | maj a b c =>
        exact .maj hi (hfanin a (by simp [Node.fanins])) (hfanin b (by simp [Node.fanins]))
          (hfanin c (by simp [Node.fanins]))
    cases complemented with
    | false => exact hdirect
    | true =>
      have hcomplement := n.eval_complement x ⟨i, false⟩
      rw [show (⟨i, true⟩ : Signal) = (⟨i, false⟩ : Signal).complement from rfl, hcomplement]
      exact .complement hdirect

theorem WellFormed.evaluates_iff {n : Network} (h : n.WellFormed) {x : Nat → Bool} {s : Signal}
    (hs : s.node < n.size) {v : Bool} : Evaluates n x s v ↔ n.eval x s = v := by
  constructor
  · exact h.eval_of_evaluates
  · rintro rfl
    exact h.evaluates_eval x hs

theorem WellFormed.exists_simulate {n : Network} (h : n.WellFormed)
    (hn : n.numInputs ≤ TruthTable.maxVars) :
    ∃ tables, n.simulate = .ok tables ∧ tables.length = n.numOutputs ∧
      ∀ (k : Nat) (o : Output) (t : TruthTable), n.outputs[k]? = some o → tables[k]? = some t →
        t.Tabulates n.numInputs fun x => n.eval x.testBit o.signal := by
  obtain ⟨nodeTables, hok, hsize, hagree⟩ := h.exists_nodeTables hn
  have hsimulate : n.simulate = n.outputs.mapM fun o => o.signal.table nodeTables := by
    rw [simulate, hok]
    rfl
  have htable : ∀ o ∈ n.outputs, ∃ t, o.signal.table nodeTables = .ok t ∧
      t.Tabulates n.numInputs fun x => n.eval x.testBit o.signal :=
    fun o ho => Signal.exists_table (hsize ▸ h.outputs o ho) hagree
  obtain ⟨tables, hmap⟩ := exists_mapM_iff.mpr fun o ho => (htable o ho).imp fun t ht => ht.1
  have hentries := mapM_eq_ok_iff.mp hmap
  refine ⟨tables, hsimulate.trans hmap, ?_, fun k o t ho ht => ?_⟩
  · have hlength := congrArg List.length hentries
    rwa [List.length_map, List.length_map, eq_comm] at hlength
  · have hentry := congrArg (·[k]?) hentries
    simp only [List.getElem?_map, ho, ht, Option.map_some, Option.some.injEq] at hentry
    obtain ⟨u, hu, htab⟩ := htable o (List.mem_of_getElem? ho)
    rw [hentry] at hu
    cases hu
    exact htab

theorem WellFormed.simulate_eq_error {n : Network} (h : n.WellFormed)
    (hn : TruthTable.maxVars < n.numInputs) :
    n.simulate = .error (.invalid (.tooManyVariables n.numInputs TruthTable.maxVars)) := by
  rw [simulate, h.nodeTables_eq_error hn]
  rfl

theorem WellFormed.evaluates_iff_of_forall {n : Network} (h : n.WellFormed) {s s' : Signal}
    (hs : s.node < n.size) (hs' : s'.node < n.size) :
    (∀ x v, Evaluates n x s v ↔ Evaluates n x s' v) ↔
      ∀ x < 2 ^ n.numInputs, n.eval x.testBit s = n.eval x.testBit s' := by
  simp only [h.evaluates_iff hs, h.evaluates_iff hs']
  constructor
  · intro hsame x _
    exact ((hsame x.testBit _).mpr rfl)
  · intro hsame x v
    have hread : n.values x = n.values (packBits x n.numInputs).testBit :=
      h.values_congr fun k hk => by simp [testBit_packBits, hk]
    have heq := hsame _ (packBits_lt x n.numInputs)
    simp only [eval, hread] at heq ⊢
    rw [heq]

theorem simulate_agrees_with_evaluation {calls : List Call} {n : Network} (hn : ofCalls calls = n) :
    ((∃ tables, n.simulate = .ok tables) ↔ n.numInputs ≤ 20) ∧
    (∀ node, n.simulate ≠ .error (.missingNode node)) ∧
    (∀ tables, n.nodeTables = .ok tables → ∀ t ∈ tables,
      t.numVars = n.numInputs ∧ t.complement? = some t.complement) ∧
    ∀ tables, n.simulate = .ok tables →
      tables.length = n.numOutputs ∧
      (∀ (k : Nat) (o : Output) (t : TruthTable), n.outputs[k]? = some o → tables[k]? = some t →
        t.numVars = n.numInputs ∧
        ∀ x < 2 ^ n.numInputs, ∃ v, Evaluates n x.testBit o.signal v ∧ t.bit? x = some v) ∧
      ∀ (j k : Nat) (o o' : Output) (t t' : TruthTable),
        n.outputs[j]? = some o → n.outputs[k]? = some o' →
        tables[j]? = some t → tables[k]? = some t' →
        (t = t' ↔ ∀ x v, Evaluates n x o.signal v ↔ Evaluates n x o'.signal v) := by
  subst hn
  have h := wellFormed_ofCalls calls
  rcases Nat.lt_or_ge TruthTable.maxVars (ofCalls calls).numInputs with hmany | hfew
  · have herror := h.simulate_eq_error hmany
    have hnodes := h.nodeTables_eq_error hmany
    refine ⟨?_, ?_, ?_, ?_⟩
    · rw [herror]
      simpa [TruthTable.maxVars] using hmany
    · simp [herror]
    · simp [hnodes]
    · simp [herror]
  · obtain ⟨tables, hok, hlength, htab⟩ := h.exists_simulate hfew
    obtain ⟨nodeTables, hnodes, _, hagree⟩ := h.exists_nodeTables hfew
    have hexists : ∀ {k : Nat} {o : Output}, (ofCalls calls).outputs[k]? = some o →
        o.signal.node < (ofCalls calls).size := fun ho => h.outputs _ (List.mem_of_getElem? ho)
    refine ⟨⟨fun _ => hfew, fun _ => ⟨tables, hok⟩⟩, by simp [hok], ?_, ?_⟩
    · intro nodeTables' hnodes' t ht
      cases hnodes.symm.trans hnodes'
      obtain ⟨i, hi⟩ := Array.mem_iff_getElem?.mp ht
      have htable := hagree i t hi
      exact ⟨htable.arity, htable.packed.toSized.complement?_eq⟩
    · intro tables' hok'
      cases hok.symm.trans hok'
      refine ⟨hlength, fun k o t ho ht => ?_, fun j k o o' t t' ho ho' ht ht' => ?_⟩
      · have htable := htab k o t ho ht
        exact ⟨htable.arity, fun x hx =>
          ⟨_, h.evaluates_eval x.testBit (hexists ho), htable.bit?_eq hx⟩⟩
      · rw [(htab j o t ho ht).eq_iff (htab k o' t' ho' ht'),
          h.evaluates_iff_of_forall (hexists ho) (hexists ho')]

def differenceCalls : List Call :=
  [.input "a", .input "b", .gate (.xor ⟨1, false⟩ ⟨2, false⟩), .gate (.and ⟨1, false⟩ ⟨2, false⟩),
    .input "c", .gate (.or ⟨1, false⟩ ⟨2, false⟩), .gate (.and ⟨6, true⟩ ⟨4, true⟩), .reload,
    .output ⟨3, false⟩ "gate", .output ⟨7, false⟩ "parts"]

theorem simulate_agrees_with_evaluation_difference :
    ∃ t t', (ofCalls differenceCalls).simulate = .ok [t, t'] ∧
      (∀ x < 2 ^ 3, ∃ v, Evaluates (ofCalls differenceCalls) x.testBit ⟨7, false⟩ v ∧
        t'.bit? x = some v) ∧
      (t = t' ↔ ∀ x v, Evaluates (ofCalls differenceCalls) x ⟨3, false⟩ v ↔
        Evaluates (ofCalls differenceCalls) x ⟨7, false⟩ v) := by
  obtain ⟨hok, _, _, hagree⟩ :=
    simulate_agrees_with_evaluation (rfl : ofCalls differenceCalls = _)
  obtain ⟨tables, htables⟩ := hok.mpr (by decide)
  obtain ⟨hlength, hbits, hsame⟩ := hagree tables htables
  obtain ⟨t, t', rfl⟩ := List.length_eq_two.mp hlength
  exact ⟨t, t', htables, (hbits 1 ⟨"parts", ⟨7, false⟩⟩ t' rfl rfl).2,
    hsame 0 1 ⟨"gate", ⟨3, false⟩⟩ ⟨"parts", ⟨7, false⟩⟩ t t' rfl rfl rfl rfl⟩

end Network

end ReversibleSynthesis
