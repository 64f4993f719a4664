import Mathlib.Logic.Function.Basic
import ReversibleSynthesis.Proofs.Network.Value
import ReversibleSynthesis.Proofs.Verilog.Module

namespace ReversibleSynthesis.Verilog

theorem Expression.eval_congr {v w : String → Bool} {expr : Expression}
    (h : ∀ name ∈ expr.identifiers, v name = w name) : expr.eval v = expr.eval w := by
  induction expr with
  | identifier name => exact h name (by simp [identifiers])
  | constant value => rfl
  | not inner ih => rw [eval, eval, ih h]
  | binary left op right ihl ihr =>
    rw [eval, eval, ihl fun name hname => h name (List.mem_append_left _ hname),
      ihr fun name hname => h name (List.mem_append_right _ hname)]

namespace Module

structure Satisfies (m : Module) (x : Nat → Bool) (v : String → Bool) : Prop where
  inputs : ∀ (k : Nat) (name : String), m.inputs[k]? = some name → v name = x k
  assigns : ∀ a ∈ m.assigns, v a.target = a.expr.eval v

def solve (v : String → Bool) (as : List Assign) : String → Bool :=
  as.foldl (fun v a => Function.update v a.target (a.expr.eval v)) v

section Solve

variable {v : String → Bool} {known : List String} {as : List Assign}

theorem solve_cons (v : String → Bool) (a : Assign) (as : List Assign) :
    solve v (a :: as) = solve (Function.update v a.target (a.expr.eval v)) as := rfl

theorem solve_of_notMem {name : String} (h : name ∉ as.map Assign.target) :
    solve v as name = v name := by
  induction as generalizing v with
  | nil => rfl
  | cons a as ih =>
    rw [List.map_cons, List.mem_cons, not_or] at h
    rw [solve_cons, ih h.2, Function.update_of_ne h.1]

theorem solve_equation (hs : Scheduled known as) (hnodup : (as.map Assign.target).Nodup)
    (hfresh : ∀ a ∈ as, a.target ∉ known) :
    ∀ a ∈ as, solve v as a.target = a.expr.eval (solve v as) := by
  induction as generalizing v known with
  | nil => exact nofun
  | cons a as ih =>
    obtain ⟨hnot, hnodup⟩ := List.nodup_cons.mp hnodup
    obtain ⟨ha, hrest⟩ := List.forall_mem_cons.mp hfresh
    have hlater : ∀ b ∈ as, b.target ∉ a.target :: known := fun b hb hmem =>
      (List.mem_cons.mp hmem).elim (fun heq => hnot (heq ▸ List.mem_map_of_mem hb)) (hrest b hb)
    rw [solve_cons]
    refine List.forall_mem_cons.mpr ⟨?_, ih hs.2 hnodup hlater⟩
    -- what the first assignment reads is not assigned any more
    rw [solve_of_notMem hnot, Function.update_self]
    refine Expression.eval_congr fun name hname => ?_
    have hmem := hs.1 name hname
    rw [solve_of_notMem, Function.update_of_ne]
    · exact fun heq => ha (heq ▸ hmem)
    · intro hin
      obtain ⟨b, hb, rfl⟩ := List.mem_map.mp hin
      exact hrest b hb hmem

theorem eq_of_equations {w : String → Bool} (hs : Scheduled known as)
    (hv : ∀ a ∈ as, v a.target = a.expr.eval v) (hw : ∀ a ∈ as, w a.target = a.expr.eval w)
    (hagree : ∀ name ∈ known, v name = w name) :
    ∀ name, name ∈ known ∨ name ∈ as.map Assign.target → v name = w name := by
  induction as generalizing known with
  | nil => exact fun name hname => hagree name (hname.resolve_right List.not_mem_nil)
  | cons a as ih =>
    obtain ⟨hva, hvrest⟩ := List.forall_mem_cons.mp hv
    obtain ⟨hwa, hwrest⟩ := List.forall_mem_cons.mp hw
    have htarget : v a.target = w a.target := by
      rw [hva, hwa]
      exact Expression.eval_congr fun name hname => hagree name (hs.1 name hname)
    intro name hname
    refine ih hs.2 hvrest hwrest (List.forall_mem_cons.mpr ⟨htarget, hagree⟩) name ?_
    simp only [List.map_cons, List.mem_cons] at hname ⊢
    tauto

theorem Satisfies.eq_of_scheduled {m : Module} {x : Nat → Bool} {w : String → Bool}
    (hv : m.Satisfies x v) (hw : m.Satisfies x w) (hperm : as.Perm m.assigns)
    (hs : Scheduled m.inputs as) {name : String} (hname : name ∈ m.targets) : v name = w name := by
  have hagree : ∀ other ∈ m.inputs, v other = w other := by
    intro other hother
    obtain ⟨k, hk⟩ := List.mem_iff_getElem?.mp hother
    rw [hv.inputs k other hk, hw.inputs k other hk]
  exact eq_of_equations hs (fun a ha => hv.assigns a (hperm.subset ha))
    (fun a ha => hw.assigns a (hperm.subset ha)) hagree name (.inr ((hperm.map _).symm.subset hname))

end Solve

end Module

namespace Elaborated

open Network (Grows)

def names (e : Elaborated) : List String := e.signals.map Prod.fst

structure Represents (e : Elaborated) (v : (Nat → Bool) → String → Bool) : Prop where
  wellFormed : e.network.WellFormed
  exists_node : ∀ name s, e.signal? name = some s → s.node < e.network.size
  eval_eq : ∀ name s, e.signal? name = some s → ∀ x, e.network.eval x s = v x name

section Signals

variable {e : Elaborated}

theorem mem_names {name : String} : name ∈ e.names ↔ ∃ s, e.signal? name = some s := by
  rw [← Option.isSome_iff_exists, Option.isSome_iff_ne_none, ne_eq, signal?, List.lookup_eq_none_iff]
  simp only [names, List.mem_map, bne_iff_ne, ne_eq, not_forall, not_not]
  exact ⟨fun ⟨p, hp, heq⟩ => ⟨p, hp, heq.symm⟩, fun ⟨p, hp, heq⟩ => ⟨p, hp, heq.symm⟩⟩

theorem signal?_bind (e : Elaborated) (name other : String) (s : Signal) :
    (e.bind name s).signal? other = if other = name then some s else e.signal? other := by
  by_cases h : other = name
  · subst h
    rw [bind, signal?, List.lookup_cons_self, if_pos rfl]
  · rw [bind, signal?, List.lookup_cons, beq_eq_false_iff_ne.mpr h, if_neg h, signal?]

variable {v : (Nat → Bool) → String → Bool}

theorem Represents.grow (h : e.Represents v) {network : Network} (hgrows : Grows e.network network) :
    Represents { e with network := network } v where
  wellFormed := hgrows.wellFormed h.wellFormed
  exists_node name s hs := Nat.lt_of_lt_of_le (h.exists_node name s hs) hgrows.size_le
  eval_eq name s hs x := (hgrows.eval_eq x (h.exists_node name s hs)).trans (h.eval_eq name s hs x)

theorem Represents.bind (h : e.Represents v) {name : String} {s : Signal}
    (hs : s.node < e.network.size) {value : (Nat → Bool) → Bool}
    (heval : ∀ x, e.network.eval x s = value x) :
    (e.bind name s).Represents fun x => Function.update (v x) name (value x) where
  wellFormed := h.wellFormed
  exists_node other t ht := by
    rw [signal?_bind] at ht
    split at ht
    · cases ht
      exact hs
    · exact h.exists_node other t ht
  eval_eq other t ht x := by
    rw [signal?_bind] at ht
    split at ht
    · next heq =>
      cases ht
      rw [heq, Function.update_self]
      exact heval x
    · next hne =>
      rw [Function.update_of_ne hne]
      exact h.eval_eq other t ht x

end Signals

section Assignments

variable {v : (Nat → Bool) → String → Bool}

theorem createGate_yields {n : Network} {a b : Signal} (h : n.WellFormed) (ha : a.node < n.size)
    (hb : b.node < n.size) (op : BinaryOperator) : ∃ r, createGate n op a b = .ok r ∧
      n.Yields r (fun x => op.apply (n.eval x a) (n.eval x b)) := by
  cases op with
  | and =>
    obtain ⟨r, hr, hyields⟩ := Network.createAnd_yields h ha hb
    exact ⟨r, by rw [createGate, hr]; rfl, hyields⟩
  | or =>
    obtain ⟨r, hr, hyields⟩ := Network.createOr_yields h ha hb
    exact ⟨r, by rw [createGate, hr]; rfl, hyields⟩
  | xor =>
    obtain ⟨r, hr, hyields⟩ := Network.createXor_yields h ha hb
    exact ⟨r, by rw [createGate, hr]; rfl, hyields⟩

theorem exists_expression {signals : List (String × Signal)} {n : Network}
    (h : Represents ⟨n, signals⟩ v) {expr : Expression}
    (hknown : ∀ name ∈ expr.identifiers, name ∈ signals.map Prod.fst) :
    ∃ r, expression signals n expr = .ok r ∧ Grows n r.2 ∧ r.1.node < r.2.size ∧
      ∀ x, r.2.eval x r.1 = expr.eval (v x) := by
  induction expr generalizing n with
  | identifier name =>
    have hmem : name ∈ names ⟨n, signals⟩ := hknown name (by simp [Expression.identifiers])
    obtain ⟨s, hs⟩ := mem_names.mp hmem
    refine ⟨(s, n), ?_, .refl, h.exists_node name s hs, h.eval_eq name s hs⟩
    rw [expression, show signals.lookup name = some s from hs]
  | constant value =>
    exact ⟨(.const value, n), rfl, .refl, h.wellFormed.pos, fun x => h.wellFormed.eval_const x value⟩
  | not inner ih =>
    obtain ⟨r, hr, hgrows, hnode, heval⟩ := ih h hknown
    refine ⟨(r.1.complement, r.2), ?_, hgrows, hnode, fun x => ?_⟩
    · rw [expression, hr]
      rfl
    · rw [Network.eval_complement, heval, Expression.eval]
  | binary left op right ihl ihr =>
    obtain ⟨a, ha, hgrowsa, hnodea, hevala⟩ :=
      ihl h fun name hname => hknown name (List.mem_append_left _ hname)
    have hleft := h.grow hgrowsa
    obtain ⟨b, hb, hgrowsb, hnodeb, hevalb⟩ :=
      ihr hleft fun name hname => hknown name (List.mem_append_right _ hname)
    have hnode : a.1.node < b.2.size := Nat.lt_of_lt_of_le hnodea hgrowsb.size_le
    obtain ⟨r, hr, hyields⟩ :=
      createGate_yields (hleft.grow hgrowsb).wellFormed hnode hnodeb op
    refine ⟨r, ?_, (hgrowsa.trans hgrowsb).tail hyields.grows, hyields.exists_node, fun x => ?_⟩
    · rw [expression, ha]
      simp only [Bind.bind, Except.bind, hb]
      exact hr
    · rw [hyields.eval_eq, hgrowsb.eval_eq x hnodea, hevala, hevalb, Expression.eval]

theorem Represents.exists_assign {e : Elaborated} (h : e.Represents v) {a : Assign}
    (hknown : ∀ name ∈ a.expr.identifiers, name ∈ e.names) :
    ∃ e', e.assign a = .ok e' ∧ e'.names = a.target :: e.names ∧ Grows e.network e'.network ∧
      e'.Represents fun x => Function.update (v x) a.target (a.expr.eval (v x)) := by
  obtain ⟨r, hr, hgrows, hnode, heval⟩ := exists_expression h hknown
  refine ⟨{ e with network := r.2 }.bind a.target r.1, ?_, rfl, hgrows,
    (h.grow hgrows).bind hnode heval⟩
  rw [assign, hr]
  rfl

theorem Represents.exists_foldlM_assign {e : Elaborated} (h : e.Represents v) {as : List Assign}
    {known : List String} (hs : Module.Scheduled known as) (hknown : known ⊆ e.names) :
    ∃ e', as.foldlM assign e = .ok e' ∧
      (∀ name, name ∈ e'.names ↔ name ∈ e.names ∨ name ∈ as.map Assign.target) ∧
      Grows e.network e'.network ∧ e'.Represents fun x => Module.solve (v x) as := by
  induction as generalizing e v known with
  | nil => exact ⟨e, rfl, by simp, .refl, h⟩
  | cons a as ih =>
    obtain ⟨e₁, he₁, hnames₁, hgrows₁, h₁⟩ :=
      h.exists_assign fun name hname => hknown (hs.1 name hname)
    obtain ⟨e₂, he₂, hnames₂, hgrows₂, h₂⟩ :=
      ih h₁ hs.2 (hnames₁ ▸ List.cons_subset_cons a.target hknown)
    refine ⟨e₂, ?_, fun name => ?_, hgrows₁.trans hgrows₂, h₂⟩
    · rw [List.foldlM_cons, he₁]
      exact he₂
    · rw [hnames₂, hnames₁, List.map_cons, List.mem_cons, List.mem_cons, or_assoc]
      exact or_left_comm

end Assignments

section Inputs

theorem Represents.addInput {e : Elaborated} {v : (Nat → Bool) → String → Bool}
    (h : e.Represents v) (name : String) :
    (e.addInput name).Represents fun x => Function.update (v x) name (x e.network.numInputs) := by
  have hsize : (e.network.createInput name).2.size = e.network.size + 1 :=
    e.network.size_push (.input e.network.numInputs)
  have hgrown : Represents { e with network := (e.network.createInput name).2 } v :=
    { wellFormed := h.wellFormed.createInput name
      exists_node := fun other s hs => by
        have hlt := h.exists_node other s hs
        dsimp only
        omega
      eval_eq := fun other s hs x =>
        (e.network.eval_push_of_lt _ x (h.exists_node other s hs)).trans (h.eval_eq other s hs x) }
  exact hgrown.bind (hsize ▸ Nat.lt_succ_self _) fun x => e.network.eval_push_last _ x

def inputsOnly (names : List String) : Elaborated := names.foldl addInput ⟨.empty, []⟩

theorem inputsOnly_concat (names : List String) (name : String) :
    inputsOnly (names ++ [name]) = (inputsOnly names).addInput name := by
  rw [inputsOnly, List.foldl_append, List.foldl_cons, List.foldl_nil, inputsOnly]

theorem interface_inputsOnly (names : List String) :
    (inputsOnly names).names = names.reverse ∧ (inputsOnly names).network.inputNames = names ∧
      (inputsOnly names).network.numInputs = names.length ∧
      (inputsOnly names).network.outputs = [] := by
  induction names using List.reverseRecOn with
  | nil => exact ⟨rfl, rfl, rfl, rfl⟩
  | append_singleton names name ih =>
    obtain ⟨hsignals, hnames, hcount, houtputs⟩ := ih
    rw [inputsOnly_concat]
    refine ⟨?_, ?_, ?_, houtputs⟩
    · rw [List.reverse_concat, ← hsignals]
      rfl
    · exact congrArg (· ++ [name]) hnames
    · rw [List.length_append, ← hcount]
      exact List.length_append

theorem exists_represents_inputsOnly {names : List String} (hnodup : names.Nodup) :
    ∃ v, (inputsOnly names).Represents v ∧
      ∀ x (k : Nat) name, names[k]? = some name → v x name = x k := by
  induction names using List.reverseRecOn with
  | nil => exact ⟨fun _ _ => false, ⟨.empty, nofun, nofun⟩, nofun⟩
  | append_singleton names name ih =>
    obtain ⟨hnames, -, hdisjoint⟩ := List.nodup_append'.mp hnodup
    obtain ⟨v, hv, hinputs⟩ := ih hnames
    refine ⟨_, inputsOnly_concat names name ▸ hv.addInput name, fun x k other hk => ?_⟩
    rw [(interface_inputsOnly names).2.2.1]
    rw [List.getElem?_append] at hk
    split at hk
    · have hne : other ≠ name := by
        rintro rfl
        exact hdisjoint (List.mem_of_getElem? hk) (List.mem_singleton_self _)
      rw [Function.update_of_ne hne]
      exact hinputs x k other hk
    · obtain ⟨hlt, heq⟩ := List.getElem?_eq_some_iff.mp hk
      rw [List.length_singleton] at hlt
      have hlength : k = names.length := by omega
      rw [List.getElem_singleton] at heq
      rw [← heq, Function.update_self, hlength]

end Inputs

section Outputs

variable {e : Elaborated}

def withOutputs (e : Elaborated) (outputs : List Output) : Elaborated :=
  { e with network := { e.network with outputs := e.network.outputs ++ outputs } }

theorem withOutputs_withOutputs (e : Elaborated) (first second : List Output) :
    (e.withOutputs first).withOutputs second = e.withOutputs (first ++ second) := by
  simp only [withOutputs, List.append_assoc]

theorem addOutput_eq_ok {name : String} {e' : Elaborated} (h : e.addOutput name = .ok e') :
    name ∈ e.names ∧ e'.names = e.names := by
  rw [addOutput] at h
  split at h
  · cases h
  · next s hs =>
    obtain ⟨network, -, rfl⟩ := map_eq_ok_iff.mp h
    exact ⟨mem_names.mpr ⟨s, hs⟩, rfl⟩

theorem subset_names_of_foldlM_addOutput {names : List String} {e' : Elaborated}
    (h : names.foldlM addOutput e = .ok e') : names ⊆ e.names := by
  induction names generalizing e with
  | nil => exact List.nil_subset _
  | cons name names ih =>
    obtain ⟨e₁, h₁, hrest⟩ := bind_eq_ok_iff.mp h
    obtain ⟨hmem, hnames⟩ := addOutput_eq_ok h₁
    exact List.cons_subset.mpr ⟨hmem, hnames ▸ ih hrest⟩

theorem exists_foldlM_addOutput
    (hnode : ∀ name s, e.signal? name = some s → s.node < e.network.size)
    {names : List String} (hnames : names ⊆ e.names) :
    ∃ outputs, names.foldlM addOutput e = .ok (e.withOutputs outputs) ∧
      outputs.map Output.name = names ∧ ∀ o ∈ outputs, e.signal? o.name = some o.signal := by
  induction names generalizing e with
  | nil => exact ⟨[], by simp [withOutputs]; rfl, rfl, nofun⟩
  | cons name names ih =>
    obtain ⟨hname, hrest⟩ := List.cons_subset.mp hnames
    obtain ⟨s, hs⟩ := mem_names.mp hname
    have hfirst : e.addOutput name = .ok (e.withOutputs [⟨name, s⟩]) := by
      rw [addOutput, hs]
      simp only [Network.createOutput, Network.check_of_lt (hnode name s hs)]
      rfl
    have hnode' : ∀ other t, (e.withOutputs [⟨name, s⟩]).signal? other = some t →
        t.node < (e.withOutputs [⟨name, s⟩]).network.size := hnode
    obtain ⟨outputs, houtputs, hmap, hsignals⟩ := ih hnode' hrest
    refine ⟨⟨name, s⟩ :: outputs, ?_, ?_, List.forall_mem_cons.mpr ⟨hs, hsignals⟩⟩
    · rw [withOutputs_withOutputs, List.singleton_append] at houtputs
      rw [List.foldlM_cons, hfirst]
      exact houtputs
    · rw [List.map_cons, hmap]

end Outputs

end Elaborated

namespace Module

variable {m : Module}

structure Elaborates (m : Module) (e : Elaborated) (v : (Nat → Bool) → String → Bool) : Prop where
  represents : e.Represents v
  satisfies : ∀ x, m.Satisfies x (v x)
  mem_names : ∀ name, name ∈ e.names ↔ name ∈ m.inputs ∨ name ∈ m.targets
  inputNames : e.network.inputNames = m.inputs
  numInputs : e.network.numInputs = m.inputs.length
  outputs : e.network.outputs = []

theorem exists_elaborates (h : m.Declared) {as : List Assign} (hperm : as.Perm m.assigns)
    (hs : Scheduled m.inputs as) :
    ∃ e v, as.foldlM Elaborated.assign (.inputsOnly m.inputs) = .ok e ∧ m.Elaborates e v := by
  obtain ⟨hsignals, hinputNames, hnumInputs, houtputs⟩ :=
    Elaborated.interface_inputsOnly m.inputs
  have hnodup : m.inputs.Nodup := h.names.of_append_left.of_append_left
  obtain ⟨v, hstart, hinputs⟩ := Elaborated.exists_represents_inputsOnly hnodup
  have hknown : m.inputs ⊆ (Elaborated.inputsOnly m.inputs).names := by
    rw [hsignals]
    exact fun name hname => List.mem_reverse.mpr hname
  obtain ⟨e, he, hnames, hgrows, hrepresents⟩ := hstart.exists_foldlM_assign hs hknown
  obtain ⟨hsameInputs, hsameNames, hsameOutputs⟩ := hgrows.interface_eq
  have hfresh : ∀ a ∈ as, a.target ∉ m.inputs :=
    fun a ha => h.target_notMem_inputs (hperm.subset ha)
  have htargets : (as.map Assign.target).Perm m.targets := hperm.map _
  refine ⟨e, _, he, hrepresents, fun x => ⟨fun k name hk => ?_, fun a ha => ?_⟩, fun name => ?_,
    hsameNames.trans hinputNames, ?_, hsameOutputs.trans houtputs⟩
  · rw [solve_of_notMem]
    · exact hinputs x k name hk
    · intro hin
      obtain ⟨a, ha, rfl⟩ := List.mem_map.mp hin
      exact hfresh a ha (List.mem_of_getElem? hk)
  · exact solve_equation hs (htargets.nodup_iff.mpr h.single) hfresh a (hperm.symm.subset ha)
  · rw [hnames, hsignals, List.mem_reverse, htargets.mem_iff]
  · rw [Network.numInputs, hsameInputs]
    exact hnumInputs

theorem toNetwork_eq_ok_iff {n : Network} : m.toNetwork = .ok n ↔ m.Declared ∧
    ∃ g, m.dependencies = .ok g ∧ ∃ vs, g.order = .ok vs ∧
    ∃ e, (vs.filterMap (m.assigns[·]?)).foldlM Elaborated.assign (.inputsOnly m.inputs) = .ok e ∧
    ∃ e', m.outputs.foldlM Elaborated.addOutput e = .ok e' ∧ e'.network = n := by
  rw [declared_iff, toNetwork]
  simp only [bind_eq_ok_iff]
  constructor
  · rintro ⟨_, hnames, _, htargets, g, hg, h⟩
    split at h
    · next vs horder =>
      simp only [pure_bind, bind_eq_ok_iff] at h
      obtain ⟨e, he, e', he', hn⟩ := h
      exact ⟨⟨hnames, htargets, g, hg⟩, g, hg, vs, horder, e, he, e', he', Except.ok.inj hn⟩
    · cases h
  · rintro ⟨⟨hnames, htargets, -⟩, g, hg, vs, horder, e, he, e', he', rfl⟩
    refine ⟨(), hnames, (), htargets, g, hg, ?_⟩
    simp only [horder, pure_bind, bind_eq_ok_iff]
    exact ⟨e, he, e', he', rfl⟩

theorem exists_elaborates_of_toNetwork {n : Network} (h : m.toNetwork = .ok n) :
    m.Declared ∧ ∃ as, as.Perm m.assigns ∧ Scheduled m.inputs as ∧
      ∃ e v, m.Elaborates e v ∧ m.outputs ⊆ e.names ∧
        ∃ outputs, outputs.map Output.name = m.outputs ∧
          (∀ o ∈ outputs, e.signal? o.name = some o.signal) ∧
          (e.withOutputs outputs).network = n := by
  obtain ⟨hdeclared, g, hg, vs, horder, e, he, e', he', rfl⟩ := toNetwork_eq_ok_iff.mp h
  obtain ⟨hperm, hs⟩ := exists_schedule hdeclared hg horder
  obtain ⟨e₁, v, he₁, helaborates⟩ := exists_elaborates hdeclared hperm hs
  obtain rfl : e₁ = e := Except.ok.inj (he₁.symm.trans he)
  have hnames := Elaborated.subset_names_of_foldlM_addOutput he'
  obtain ⟨outputs, houtputs, hmap, hsignals⟩ :=
    Elaborated.exists_foldlM_addOutput helaborates.represents.exists_node hnames
  obtain rfl : e' = e₁.withOutputs outputs := Except.ok.inj (he'.symm.trans houtputs)
  exact ⟨hdeclared, _, hperm, hs, e₁, v, helaborates, hnames, outputs, hmap, hsignals, rfl⟩

theorem toNetwork_eq_ok_iff_wellFormed (m : Module) :
    (∃ n, m.toNetwork = .ok n) ↔ m.WellFormed := by
  constructor
  · rintro ⟨n, h⟩
    obtain ⟨hdeclared, as, hperm, hs, e, v, helaborates, hnames, -⟩ :=
      exists_elaborates_of_toNetwork h
    refine ⟨hdeclared, fun name hname => ?_, acyclic_of_scheduled hdeclared hperm hs⟩
    have hsignal := hnames hname
    rw [helaborates.mem_names, mem_targets] at hsignal
    exact hsignal.resolve_left (notMem_inputs hdeclared.names (.inl hname))
  · intro h
    obtain ⟨-, -, g, hg⟩ := declared_iff.mp h.toDeclared
    cases horder : g.order with
    | error v =>
      obtain ⟨a, -, hcycle⟩ := uses_cycle_of_order_eq_error h.toDeclared hg horder
      exact absurd hcycle (h.acyclic a)
    | ok vs =>
      obtain ⟨hperm, hs⟩ := exists_schedule h.toDeclared hg horder
      obtain ⟨e, v, he, helaborates⟩ := exists_elaborates h.toDeclared hperm hs
      have hknown : m.outputs ⊆ e.names := fun name hname =>
        (helaborates.mem_names name).mpr (.inr (mem_targets.mpr (h.driven name hname)))
      obtain ⟨outputs, houtputs, -⟩ :=
        Elaborated.exists_foldlM_addOutput helaborates.represents.exists_node hknown
      exact ⟨_, toNetwork_eq_ok_iff.mpr
        ⟨h.toDeclared, g, hg, vs, horder, e, he, _, houtputs, rfl⟩⟩

theorem toNetwork_solves_assigns {m : Module} {n : Network} (h : m.toNetwork = .ok n) :
    n.inputNames = m.inputs ∧ n.numInputs = m.inputs.length ∧
      n.outputs.map Output.name = m.outputs ∧
      ∀ x, (∀ k i : Nat, n.inputs[k]? = some i → n.eval x ⟨i, false⟩ = x k) ∧
        ∃ v, m.Satisfies x v ∧
          (∀ w, m.Satisfies x w → ∀ a ∈ m.assigns, w a.target = v a.target) ∧
          n.outputs.map (fun o => n.eval x o.signal) = m.outputs.map v := by
  obtain ⟨-, as, hperm, hs, e, v, helaborates, -, outputs, hnames, hsignals, rfl⟩ :=
    exists_elaborates_of_toNetwork h
  have hrepresents := helaborates.represents
  have hall : (e.withOutputs outputs).network.outputs = outputs := by
    rw [Elaborated.withOutputs, helaborates.outputs, List.nil_append]
  refine ⟨helaborates.inputNames, helaborates.numInputs, hall.symm ▸ hnames, fun x => ⟨?_, ?_⟩⟩
  · exact fun k i hk => hrepresents.wellFormed.eval_input x hk
  · refine ⟨v x, helaborates.satisfies x, fun w hw a ha => ?_, ?_⟩
    · exact hw.eq_of_scheduled (helaborates.satisfies x) hperm hs (mem_targets.mpr ⟨a, ha, rfl⟩)
    · rw [hall, ← hnames, List.map_map]
      exact List.map_congr_left fun o ho => hrepresents.eval_eq o.name o.signal (hsignals o ho) x

def wireAssignedLast : Module where
  name := "m"
  ports := []
  inputs := ["a", "b"]
  outputs := ["y", "z"]
  wires := ["w"]
  assigns :=
    [⟨"y", .binary (.identifier "w") .xor (.not (.identifier "a")), 1⟩,
      ⟨"z", .not (.binary (.identifier "w") .or (.identifier "b")), 2⟩,
      ⟨"w", .binary (.identifier "a") .and (.identifier "b"), 3⟩]

def wireAssignedLastNetwork : Network where
  nodes := #[.constant, .input 0, .input 1, .and ⟨1, false⟩ ⟨2, false⟩, .and ⟨2, true⟩ ⟨3, true⟩,
    .xor ⟨1, false⟩ ⟨3, false⟩]
  inputs := [1, 2]
  inputNames := ["a", "b"]
  outputs := [⟨"y", ⟨5, true⟩⟩, ⟨"z", ⟨4, false⟩⟩]
  table := [(.xor ⟨1, false⟩ ⟨3, false⟩, 5), (.and ⟨2, true⟩ ⟨3, true⟩, 4),
    (.and ⟨1, false⟩ ⟨2, false⟩, 3)]

theorem toNetwork_solves_assigns_wireAssignedLast :
    wireAssignedLast.toNetwork = .ok wireAssignedLastNetwork ∧
      ∀ x, ∃ v, wireAssignedLast.Satisfies x v ∧
        (∀ w, wireAssignedLast.Satisfies x w → ∀ a ∈ wireAssignedLast.assigns,
          w a.target = v a.target) ∧
        wireAssignedLastNetwork.outputs.map (fun o => wireAssignedLastNetwork.eval x o.signal) =
          [v "y", v "z"] := by
  have h : wireAssignedLast.toNetwork = .ok wireAssignedLastNetwork := rfl
  exact ⟨h, fun x => ((toNetwork_solves_assigns h).2.2.2 x).2⟩

end Module

end ReversibleSynthesis.Verilog
