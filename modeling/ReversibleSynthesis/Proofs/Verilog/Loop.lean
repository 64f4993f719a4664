import ReversibleSynthesis.Proofs.Verilog.Elaboration

namespace ReversibleSynthesis.Verilog.Module

variable {m : Module}

section Checks

variable (name : String)

theorem checkDeclarations_ne_loop : m.checkDeclarations ≠ .error (.combinationalLoop name) := by
  intro h
  rw [checkDeclarations] at h
  split at h <;> cases h

theorem checkTargets_ne_loop (driven : List String) (as : List Assign) :
    m.checkTargets driven as ≠ .error (.combinationalLoop name) := by
  intro h
  induction as generalizing driven with
  | nil => cases h
  | cons a as ih =>
    rw [checkTargets] at h
    split at h
    · cases h
    · split at h
      · cases h
      · split at h
        · cases h
        · exact ih _ h

theorem useEdge_ne_loop (user : Nat) (used : String) :
    m.useEdge user used ≠ .error (.combinationalLoop name) := by
  intro h
  rw [useEdge] at h
  split at h
  · cases h
  · split at h
    · cases h
    · split at h <;> cases h

theorem dependencies_ne_loop : m.dependencies ≠ .error (.combinationalLoop name) := by
  intro h
  rcases bind_eq_error_iff.mp h with hmap | ⟨edges, -, hpure⟩
  · obtain ⟨use, -, huse⟩ := exists_of_mapM_eq_error hmap
    exact useEdge_ne_loop name use.1 use.2 huse
  · cases hpure

theorem addOutput_ne_loop (e : Elaborated) (output : String) :
    e.addOutput output ≠ .error (.combinationalLoop name) := by
  intro h
  rw [Elaborated.addOutput] at h
  split at h
  · cases h
  · next s _ =>
    cases hcreate : e.network.createOutput s output with
    | error error => rw [hcreate] at h; cases h
    | ok network => rw [hcreate] at h; cases h

end Checks

theorem toNetwork_eq_loop_iff {name : String} : m.toNetwork = .error (.combinationalLoop name) ↔
    m.Declared ∧ ∃ g, m.dependencies = .ok g ∧ ∃ v, g.order = .error v ∧
      (m.assigns[v]?.map Assign.target).getD "" = name := by
  rw [declared_iff, toNetwork]
  simp only [bind_eq_error_iff]
  constructor
  · rintro (h | ⟨_, hnames, h | ⟨_, htargets, h | ⟨g, hg, h⟩⟩⟩)
    · exact absurd h (checkDeclarations_ne_loop name)
    · exact absurd h (checkTargets_ne_loop name _ _)
    · exact absurd h (dependencies_ne_loop name)
    · refine ⟨⟨hnames, htargets, g, hg⟩, g, hg, ?_⟩
      cases horder : g.order with
      | error v =>
        rw [horder] at h
        exact ⟨v, rfl, Error.combinationalLoop.inj (Except.error.inj h)⟩
      | ok vs =>
        -- with an order all assignments succeed, and outputs fail with other errors
        simp only [horder, pure_bind, bind_eq_error_iff] at h
        have hdeclared := declared_iff.mpr ⟨hnames, htargets, g, hg⟩
        obtain ⟨hperm, hs⟩ := exists_schedule hdeclared hg horder
        obtain ⟨e, v, he, -⟩ := exists_elaborates hdeclared hperm hs
        rcases h with h | ⟨e', -, h | ⟨e'', -, hpure⟩⟩
        · cases he.symm.trans h
        · obtain ⟨-, output, -, e₁, -, -, houtput⟩ := foldlM_eq_error_iff.mp h
          exact absurd houtput (addOutput_ne_loop name e₁ output)
        · cases hpure
  · rintro ⟨⟨hnames, htargets, -⟩, g, hg, v, horder, rfl⟩
    refine .inr ⟨(), hnames, .inr ⟨(), htargets, .inr ⟨g, hg, ?_⟩⟩⟩
    rw [horder]
    rfl

theorem loop_reported_on_cycle (m : Module) :
    (∀ name, m.toNetwork = .error (.combinationalLoop name) →
      ∃ a ∈ m.assigns, a.target = name ∧ Relation.TransGen m.Uses a a) ∧
    ((∃ name, m.toNetwork = .error (.combinationalLoop name)) ↔
      m.Declared ∧ ∃ a, Relation.TransGen m.Uses a a) := by
  have hreal : ∀ name, m.toNetwork = .error (.combinationalLoop name) →
      ∃ a ∈ m.assigns, a.target = name ∧ Relation.TransGen m.Uses a a := by
    intro name h
    obtain ⟨hdeclared, g, hg, v, horder, rfl⟩ := toNetwork_eq_loop_iff.mp h
    obtain ⟨a, ha, hcycle⟩ := uses_cycle_of_order_eq_error hdeclared hg horder
    exact ⟨a, List.mem_of_getElem? ha, by rw [ha]; rfl, hcycle⟩
  refine ⟨hreal, ?_, ?_⟩
  · rintro ⟨name, h⟩
    obtain ⟨a, -, -, hcycle⟩ := hreal name h
    exact ⟨(toNetwork_eq_loop_iff.mp h).1, a, hcycle⟩
  · rintro ⟨hdeclared, a, hcycle⟩
    obtain ⟨-, -, g, hg⟩ := declared_iff.mp hdeclared
    cases horder : g.order with
    | error v => exact ⟨_, toNetwork_eq_loop_iff.mpr ⟨hdeclared, g, hg, v, horder, rfl⟩⟩
    | ok vs =>
      obtain ⟨hperm, hs⟩ := exists_schedule hdeclared hg horder
      exact absurd hcycle (acyclic_of_scheduled hdeclared hperm hs a)

def loopInTheMiddle : Module where
  name := "m"
  ports := []
  inputs := ["a"]
  outputs := ["y"]
  wires := ["p", "q", "r", "w"]
  assigns :=
    [⟨"y", .binary (.identifier "p") .xor (.identifier "w"), 1⟩,
      ⟨"p", .binary (.identifier "q") .and (.identifier "w"), 2⟩,
      ⟨"q", .not (.identifier "r"), 3⟩,
      ⟨"r", .binary (.identifier "p") .or (.identifier "p"), 4⟩,
      ⟨"w", .not (.identifier "a"), 5⟩]

theorem loop_reported_on_cycle_inTheMiddle :
    loopInTheMiddle.toNetwork = .error (.combinationalLoop "q") ∧
      ∃ a ∈ loopInTheMiddle.assigns, a.target = "q" ∧
        Relation.TransGen loopInTheMiddle.Uses a a := by
  have h : loopInTheMiddle.toNetwork = .error (.combinationalLoop "q") := by decide
  exact ⟨h, (loop_reported_on_cycle loopInTheMiddle).1 "q" h⟩

end ReversibleSynthesis.Verilog.Module
