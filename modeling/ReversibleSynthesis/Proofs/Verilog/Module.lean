import Mathlib.Order.WellFounded
import ReversibleSynthesis.Proofs.Except
import ReversibleSynthesis.Proofs.Verilog.Dependency
import ReversibleSynthesis.Verilog.Elaboration

namespace ReversibleSynthesis.Verilog

theorem filterMap_getElem?_range {α : Type} (l : List α) :
    (List.range l.length).filterMap (l[·]?) = l := by
  have hmap : (List.range l.length).map (l[·]?) = l.map some :=
    List.ext_getElem (by simp) fun i _ _ => by simp
  have hid := congrArg (List.filterMap id) hmap
  rwa [List.filterMap_map, List.filterMap_map, Function.id_comp, Function.id_comp,
    List.filterMap_some] at hid

namespace Module

variable {m : Module}

def targets (m : Module) : List String := m.assigns.map Assign.target

def Uses (m : Module) (a b : Assign) : Prop :=
  a ∈ m.assigns ∧ b ∈ m.assigns ∧ b.target ∈ a.expr.identifiers

structure Declared (m : Module) : Prop where
  names : (m.inputs ++ m.outputs ++ m.wires).Nodup
  assigned : ∀ a ∈ m.assigns, a.target ∈ m.outputs ∨ a.target ∈ m.wires
  single : (m.assigns.map Assign.target).Nodup
  used : ∀ a ∈ m.assigns, ∀ name ∈ a.expr.identifiers,
    name ∈ m.inputs ++ m.outputs ++ m.wires ∧
      (name ∈ m.outputs ∨ name ∈ m.wires → ∃ b ∈ m.assigns, b.target = name)

structure WellFormed (m : Module) : Prop extends Declared m where
  driven : ∀ name ∈ m.outputs, ∃ a ∈ m.assigns, a.target = name
  acyclic : ∀ a, ¬ Relation.TransGen m.Uses a a

section Names

theorem mem_targets {name : String} : name ∈ m.targets ↔ ∃ a ∈ m.assigns, a.target = name :=
  List.mem_map

theorem mem_declaredNames {name : String} :
    name ∈ m.declaredNames ↔ name ∈ m.inputs ∨ name ∈ m.outputs ∨ name ∈ m.wires := by
  simp [declaredNames]

theorem notMem_inputs {name : String} (hnames : m.declaredNames.Nodup)
    (h : name ∈ m.outputs ∨ name ∈ m.wires) : name ∉ m.inputs := by
  rw [declaredNames, List.append_assoc, List.nodup_append] at hnames
  intro hinput
  exact hnames.2.2 name hinput name (List.mem_append.mpr h) rfl

theorem Declared.target_notMem_inputs (h : m.Declared) {a : Assign} (ha : a ∈ m.assigns) :
    a.target ∉ m.inputs :=
  notMem_inputs h.names (h.assigned a ha)

theorem Declared.mem_inputs_or_targets (h : m.Declared) {a : Assign} (ha : a ∈ m.assigns)
    {name : String} (hname : name ∈ a.expr.identifiers) : name ∈ m.inputs ∨ name ∈ m.targets := by
  obtain ⟨hdeclared, hdriven⟩ := h.used a ha name hname
  rcases mem_declaredNames.mp hdeclared with hinput | hlocal
  · exact .inl hinput
  · exact .inr (mem_targets.mpr (hdriven hlocal))

end Names

section Checks

theorem firstRepeated?_eq_none_iff {seen names : List String} :
    firstRepeated? seen names = none ↔ names.Nodup ∧ ∀ name ∈ names, name ∉ seen := by
  induction names generalizing seen with
  | nil => simp [firstRepeated?]
  | cons name names ih =>
    rw [firstRepeated?]
    split
    · next hmem => simp [hmem]
    · next hmem =>
      rw [ih]
      simp only [List.mem_cons, not_or, List.nodup_cons, forall_eq_or_imp]
      constructor
      · rintro ⟨hnodup, hall⟩
        exact ⟨⟨fun hin => (hall name hin).1 rfl, hnodup⟩, hmem, fun other hin => (hall other hin).2⟩
      · rintro ⟨⟨hnot, hnodup⟩, _, hall⟩
        exact ⟨hnodup, fun other hin => ⟨fun heq => hnot (heq ▸ hin), hall other hin⟩⟩

theorem checkDeclarations_eq_ok_iff : m.checkDeclarations = .ok () ↔ m.declaredNames.Nodup := by
  unfold checkDeclarations
  cases hfirst : firstRepeated? [] m.declaredNames with
  | none => simpa using (firstRepeated?_eq_none_iff.mp hfirst).1
  | some name =>
    simp only [reduceCtorEq, false_iff]
    intro hnodup
    rw [firstRepeated?_eq_none_iff.mpr ⟨hnodup, by simp⟩] at hfirst
    cases hfirst

theorem checkTargets_eq_ok_iff {driven : List String} {as : List Assign} :
    m.checkTargets driven as = .ok () ↔
      (∀ a ∈ as, a.target ∉ m.inputs ∧ a.target ∈ m.declaredNames) ∧
        (as.map Assign.target).Nodup ∧ ∀ a ∈ as, a.target ∉ driven := by
  induction as generalizing driven with
  | nil => simp [checkTargets]
  | cons a as ih =>
    rw [checkTargets]
    simp only [List.forall_mem_cons, List.map_cons, List.nodup_cons, List.mem_map, not_exists,
      not_and]
    split
    · next hinput => simp [hinput]
    · next hinput =>
      split
      · next hmem => simp [hmem]
      · next hmem =>
        split
        · next hdriven => simp [hdriven]
        · next hdriven =>
          rw [ih]
          simp only [List.mem_cons, not_or]
          constructor
          · rintro ⟨hall, hnodup, hfresh⟩
            exact ⟨⟨⟨hinput, not_not.mp hmem⟩, hall⟩, ⟨fun b hb heq => (hfresh b hb).1 heq, hnodup⟩,
              hdriven, fun b hb => (hfresh b hb).2⟩
          · rintro ⟨⟨_, hall⟩, ⟨hnot, hnodup⟩, _, hfresh⟩
            exact ⟨hall, hnodup, fun b hb => ⟨hnot b hb, hfresh b hb⟩⟩

theorem driver?_eq_some {name : String} {d : Nat} (h : m.driver? name = some d) :
    ∃ b, m.assigns[d]? = some b ∧ b.target = name := by
  obtain ⟨hlt, hfound, _⟩ := List.findIdx?_eq_some_iff_getElem.mp h
  exact ⟨m.assigns[d], List.getElem?_eq_getElem hlt, beq_iff_eq.mp hfound⟩

theorem driver?_eq_none_iff {name : String} : m.driver? name = none ↔ name ∉ m.targets := by
  simp [driver?, mem_targets, List.findIdx?_eq_none_iff]

theorem driver?_of_getElem? (hsingle : (m.assigns.map Assign.target).Nodup) {d : Nat} {b : Assign}
    (hb : m.assigns[d]? = some b) : m.driver? b.target = some d := by
  cases hdriver : m.driver? b.target with
  | none =>
    have hmem := mem_targets.mpr ⟨b, List.mem_of_getElem? hb, rfl⟩
    exact absurd hmem (driver?_eq_none_iff.mp hdriver)
  | some d' =>
    obtain ⟨b', hb', htarget⟩ := driver?_eq_some hdriver
    have hlt : d' < (m.assigns.map Assign.target).length := by
      rw [List.length_map]
      exact (List.getElem?_eq_some_iff.mp hb').1
    have hsame : (m.assigns.map Assign.target)[d']? = (m.assigns.map Assign.target)[d]? := by
      rw [List.getElem?_map, List.getElem?_map, hb, hb', Option.map_some, Option.map_some, htarget]
    rw [(List.getElem?_inj hlt hsingle).mp hsame]

theorem useEdge_eq_ok_iff {user : Nat} {name : String} {edge? : Option (Nat × Nat)} :
    m.useEdge user name = .ok edge? ↔
      (name ∈ m.inputs ∧ edge? = none) ∨ (name ∉ m.inputs ∧ name ∈ m.declaredNames ∧
        ∃ d, m.driver? name = some d ∧ edge? = some (d, user)) := by
  unfold useEdge
  split
  · next hinput => simp [hinput, eq_comm]
  · next hinput =>
    split
    · next hmem => simp [hinput, hmem]
    · next hmem =>
      cases hdriver : m.driver? name with
      | none => simp [hinput]
      | some d => simp [hinput, not_not.mp hmem, eq_comm]

theorem mem_uses {user : Nat} {name : String} :
    (user, name) ∈ m.uses ↔ ∃ a, m.assigns[user]? = some a ∧ name ∈ a.expr.identifiers := by
  simp only [uses, List.mem_flatten, List.mem_mapIdx, List.getElem?_eq_some_iff]
  constructor
  · rintro ⟨_, ⟨i, hi, rfl⟩, hmem⟩
    obtain ⟨name', hname, heq⟩ := List.mem_map.mp hmem
    cases heq
    exact ⟨_, ⟨hi, rfl⟩, hname⟩
  · rintro ⟨a, ⟨hi, rfl⟩, hname⟩
    exact ⟨_, ⟨user, hi, rfl⟩, List.mem_map_of_mem hname⟩

theorem dependencies_eq_ok_iff {g : DependencyGraph} :
    m.dependencies = .ok g ↔ ∃ edges,
      m.uses.mapM (fun use => m.useEdge use.1 use.2) = .ok edges ∧
        ⟨m.assigns.length, edges.filterMap id⟩ = g := by
  rw [dependencies, bind_eq_ok_iff]
  simp only [pure, Except.pure, Except.ok.injEq]

theorem exists_useEdge_iff {user : Nat} {name : String} :
    (∃ edge?, m.useEdge user name = .ok edge?) ↔
      name ∈ m.inputs ∨ name ∈ m.declaredNames ∧ name ∈ m.targets := by
  have hdriver : name ∈ m.targets ↔ ∃ d, m.driver? name = some d := by
    rw [← Option.isSome_iff_exists, Option.isSome_iff_ne_none, ne_eq, driver?_eq_none_iff, not_not]
  simp only [useEdge_eq_ok_iff, hdriver]
  constructor
  · rintro ⟨edge?, ⟨hinput, _⟩ | ⟨_, hdeclared, d, hd, _⟩⟩
    · exact .inl hinput
    · exact .inr ⟨hdeclared, d, hd⟩
  · intro h
    by_cases hinput : name ∈ m.inputs
    · exact ⟨none, .inl ⟨hinput, rfl⟩⟩
    · obtain ⟨hdeclared, d, hd⟩ := h.resolve_left hinput
      exact ⟨some (d, user), .inr ⟨hinput, hdeclared, d, hd, rfl⟩⟩

theorem exists_dependencies_iff :
    (∃ g, m.dependencies = .ok g) ↔ ∀ a ∈ m.assigns, ∀ name ∈ a.expr.identifiers,
      name ∈ m.inputs ∨ name ∈ m.declaredNames ∧ name ∈ m.targets := by
  have hgraph : (∃ g, m.dependencies = .ok g) ↔
      ∀ use ∈ m.uses, ∃ edge?, m.useEdge use.1 use.2 = .ok edge? := by
    rw [← exists_mapM_iff]
    simp only [dependencies_eq_ok_iff]
    exact ⟨fun ⟨_, edges, hedges, _⟩ => ⟨edges, hedges⟩, fun ⟨edges, hedges⟩ => ⟨_, edges, hedges, rfl⟩⟩
  rw [hgraph]
  simp only [exists_useEdge_iff, Prod.forall, mem_uses]
  constructor
  · intro h a ha name hname
    obtain ⟨user, huser⟩ := List.mem_iff_getElem?.mp ha
    exact h user name ⟨a, huser, hname⟩
  · rintro h user name ⟨a, huser, hname⟩
    exact h a (List.mem_of_getElem? huser) name hname

theorem declared_iff :
    m.Declared ↔ m.checkDeclarations = .ok () ∧ m.checkTargets [] m.assigns = .ok () ∧
      ∃ g, m.dependencies = .ok g := by
  rw [checkDeclarations_eq_ok_iff, checkTargets_eq_ok_iff, exists_dependencies_iff]
  constructor
  · intro h
    refine ⟨h.names, ⟨fun a ha => ⟨h.target_notMem_inputs ha, ?_⟩, h.single, by simp⟩, ?_⟩
    · exact mem_declaredNames.mpr (.inr (h.assigned a ha))
    · intro a ha name hname
      exact (h.mem_inputs_or_targets ha hname).imp_right fun htarget =>
        ⟨(h.used a ha name hname).1, htarget⟩
  · rintro ⟨hnames, ⟨hassigned, hsingle, _⟩, hused⟩
    refine ⟨hnames, fun a ha => ?_, hsingle, fun a ha name hname => ⟨?_, fun hlocal => ?_⟩⟩
    · obtain ⟨hinput, hdeclared⟩ := hassigned a ha
      exact (mem_declaredNames.mp hdeclared).resolve_left hinput
    · rcases hused a ha name hname with hinput | ⟨hdeclared, _⟩
      · exact mem_declaredNames.mpr (.inl hinput)
      · exact hdeclared
    · rcases hused a ha name hname with hinput | ⟨_, htarget⟩
      · exact absurd hinput (notMem_inputs hnames hlocal)
      · exact mem_targets.mp htarget

end Checks

section Graph

variable {g : DependencyGraph} (h : m.Declared) (hg : m.dependencies = .ok g)

include hg in
theorem size_dependencies : g.size = m.assigns.length := by
  obtain ⟨edges, _, rfl⟩ := dependencies_eq_ok_iff.mp hg
  rfl

include h hg

theorem edge_iff {d u : Nat} : g.Edge d u ↔
    ∃ a b, m.assigns[u]? = some a ∧ m.assigns[d]? = some b ∧ b.target ∈ a.expr.identifiers := by
  obtain ⟨edges, hedges, rfl⟩ := dependencies_eq_ok_iff.mp hg
  simp only [DependencyGraph.Edge, List.mem_filterMap, id, exists_eq_right, mem_of_mapM_eq_ok hedges,
    Prod.exists, useEdge_eq_ok_iff, reduceCtorEq, and_false, false_or, mem_uses, Option.some.injEq,
    Prod.mk.injEq]
  constructor
  · rintro ⟨user, name, ⟨a, ha, hname⟩, _, _, d', hdriver, rfl, rfl⟩
    obtain ⟨b, hb, rfl⟩ := driver?_eq_some hdriver
    exact ⟨a, b, ha, hb, hname⟩
  · rintro ⟨a, b, ha, hb, hname⟩
    have hmem := List.mem_of_getElem? hb
    exact ⟨u, b.target, ⟨a, ha, hname⟩, h.target_notMem_inputs hmem,
      mem_declaredNames.mpr (.inr (h.assigned b hmem)), d, driver?_of_getElem? h.single hb, rfl, rfl⟩

theorem bounded_dependencies : g.Bounded := by
  intro d u hedge
  obtain ⟨a, b, ha, hb, _⟩ := (edge_iff h hg).mp hedge
  rw [size_dependencies hg]
  exact ⟨(List.getElem?_eq_some_iff.mp hb).1, (List.getElem?_eq_some_iff.mp ha).1⟩

theorem exists_transGen_uses {d u : Nat} (hpath : Relation.TransGen g.Edge d u) :
    ∃ a b, m.assigns[u]? = some a ∧ m.assigns[d]? = some b ∧ Relation.TransGen m.Uses a b := by
  induction hpath with
  | single hedge =>
    obtain ⟨a, b, ha, hb, hname⟩ := (edge_iff h hg).mp hedge
    exact ⟨a, b, ha, hb, .single ⟨List.mem_of_getElem? ha, List.mem_of_getElem? hb, hname⟩⟩
  | tail _ hedge ih =>
    obtain ⟨a, b, ha, hb, hchain⟩ := ih
    obtain ⟨c, a', hc, ha', hname⟩ := (edge_iff h hg).mp hedge
    cases ha.symm.trans ha'
    exact ⟨c, b, hc, hb, .head ⟨List.mem_of_getElem? hc, List.mem_of_getElem? ha, hname⟩ hchain⟩

theorem uses_cycle_of_order_eq_error {v : Nat} (horder : g.order = .error v) :
    ∃ a, m.assigns[v]? = some a ∧ Relation.TransGen m.Uses a a := by
  have hcycle := DependencyGraph.order_eq_error (bounded_dependencies h hg) horder
  obtain ⟨a, b, ha, hb, hchain⟩ := exists_transGen_uses h hg hcycle
  cases ha.symm.trans hb
  exact ⟨a, ha, hchain⟩

end Graph

def Scheduled (known : List String) : List Assign → Prop
  | [] => True
  | a :: rest => (∀ name ∈ a.expr.identifiers, name ∈ known) ∧ Scheduled (a.target :: known) rest

section Schedule

variable (h : m.Declared)

include h

theorem scheduled_of_inOrder {g : DependencyGraph} (hg : m.dependencies = .ok g)
    {seen vs : List Nat} (horder : g.InOrder seen vs) {known : List String}
    (hinputs : m.inputs ⊆ known)
    (hseen : ∀ d ∈ seen, ∀ b, m.assigns[d]? = some b → b.target ∈ known) :
    Scheduled known (vs.filterMap (m.assigns[·]?)) := by
  induction vs generalizing seen known with
  | nil => trivial
  | cons u vs ih =>
    obtain ⟨hfirst, hrest⟩ := horder
    cases hu : m.assigns[u]? with
    | none =>
      rw [List.filterMap_cons_none hu]
      refine ih hrest hinputs (List.forall_mem_cons.mpr ⟨fun b hb => ?_, hseen⟩)
      rw [hu] at hb
      cases hb
    | some a =>
      rw [List.filterMap_cons_some hu]
      refine ⟨fun name hname => ?_, ih hrest (fun name hname => List.mem_cons_of_mem _ (hinputs hname))
        (List.forall_mem_cons.mpr ⟨fun b hb => ?_, fun d hd b hb => List.mem_cons_of_mem _ (hseen d hd b hb)⟩)⟩
      · rcases h.mem_inputs_or_targets (List.mem_of_getElem? hu) hname with hinput | htarget
        · exact hinputs hinput
        · obtain ⟨b, hb, rfl⟩ := mem_targets.mp htarget
          obtain ⟨d, hd⟩ := List.mem_iff_getElem?.mp hb
          exact hseen d (hfirst d ((edge_iff h hg).mpr ⟨a, b, hu, hd, hname⟩)) b hd
      · cases hu.symm.trans hb
        exact List.mem_cons_self

theorem exists_schedule {g : DependencyGraph} (hg : m.dependencies = .ok g) {vs : List Nat}
    (horder : g.order = .ok vs) :
    (vs.filterMap (m.assigns[·]?)).Perm m.assigns ∧
      Scheduled m.inputs (vs.filterMap (m.assigns[·]?)) := by
  obtain ⟨hperm, hinOrder⟩ := DependencyGraph.order_eq_ok (bounded_dependencies h hg) horder
  refine ⟨?_, scheduled_of_inOrder h hg hinOrder (List.Subset.refl _) (by simp)⟩
  rw [size_dependencies hg] at hperm
  exact (hperm.filterMap _).trans (.of_eq (filterMap_getElem?_range m.assigns))

theorem acc_of_scheduled {known : List String} {as : List Assign} (hs : Scheduled known as)
    (hsub : ∀ a ∈ as, a ∈ m.assigns)
    (hknown : ∀ b ∈ m.assigns, b.target ∈ known → Acc (Function.swap m.Uses) b) :
    ∀ a ∈ as, Acc (Function.swap m.Uses) a := by
  induction as generalizing known with
  | nil => exact nofun
  | cons a as ih =>
    obtain ⟨ha, hrest⟩ := List.forall_mem_cons.mp hsub
    have hacc : Acc (Function.swap m.Uses) a :=
      .intro a fun b hb => hknown b hb.2.1 (hs.1 _ hb.2.2)
    refine List.forall_mem_cons.mpr ⟨hacc, ih hs.2 hrest fun b hb hmem => ?_⟩
    rcases List.mem_cons.mp hmem with heq | hmem
    · rwa [List.inj_on_of_nodup_map h.single hb ha heq]
    · exact hknown b hb hmem

theorem acyclic_of_scheduled {as : List Assign} (hperm : as.Perm m.assigns)
    (hs : Scheduled m.inputs as) (a : Assign) : ¬ Relation.TransGen m.Uses a a := by
  have hassigns := acc_of_scheduled h hs (fun b hb => hperm.subset hb)
    fun b hb hmem => absurd hmem (h.target_notMem_inputs hb)
  have hwf : WellFounded (Function.swap m.Uses) := by
    refine ⟨fun b => ?_⟩
    by_cases hb : b ∈ m.assigns
    · exact hassigns b (hperm.symm.subset hb)
    · exact .intro b fun c hc => absurd hc.1 hb
  intro hcycle
  exact hwf.transGen.irrefl.irrefl a (Relation.transGen_swap.mpr hcycle)

end Schedule

end Module

end ReversibleSynthesis.Verilog
