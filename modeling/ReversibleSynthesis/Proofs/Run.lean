import Mathlib.Data.List.Basic
import Mathlib.Logic.Function.Basic
import ReversibleSynthesis.Netlist.Run

namespace ReversibleSynthesis

variable {α : Type}

namespace State

def toggle (s : State) (q : Nat) (b : Bool) : State := if b then s.flip q else s

theorem toggle_apply (s : State) (q : Nat) (b : Bool) (r : Nat) :
    s.toggle q b r = (s r ^^ (decide (r = q) && b)) := by
  cases b with
  | false => simp [toggle]
  | true =>
    by_cases h : r = q
    · subst h; simp [toggle, flip]
    · simp [toggle, flip, h]

theorem toggle_self (s : State) (q : Nat) (b : Bool) : s.toggle q b q = (s q ^^ b) := by
  simp [toggle_apply]

theorem toggle_of_ne (s : State) {q r : Nat} (b : Bool) (h : r ≠ q) : s.toggle q b r = s r := by
  simp [toggle_apply, h]

@[simp] theorem toggle_false (s : State) (q : Nat) : s.toggle q false = s := rfl

theorem toggle_toggle (s : State) (q : Nat) (b c : Bool) :
    (s.toggle q b).toggle q c = s.toggle q (b ^^ c) := by
  funext r
  simp only [toggle_apply, Bool.xor_assoc]
  cases decide (r = q) <;> simp

theorem toggle_comm (s : State) (q r : Nat) (b c : Bool) :
    (s.toggle q b).toggle r c = (s.toggle r c).toggle q b := by
  funext i
  simp only [toggle_apply]
  exact Bool.xor_right_comm _ _ _

end State

namespace Gate

theorem act_eq_toggle (g : Gate α) (s : State) :
    g.act s = s.toggle g.target (g.isClassical && g.enabled s) := by
  obtain ⟨op, cs, t⟩ := g
  cases op with
  | x => rfl
  | h => rfl
  | p angle => rfl

theorem act_of_not_classical {g : Gate α} (h : g.isClassical = false) (s : State) : g.act s = s := by
  rw [act_eq_toggle, h, Bool.false_and, State.toggle_false]

@[simp] theorem act_not (t : Nat) (s : State) : (Gate.not t : Gate α).act s = s.toggle t true := rfl

@[simp] theorem act_cnot (c t : Nat) (s : State) :
    (Gate.cnot c t : Gate α).act s = s.toggle t (s c) := by
  rw [act_eq_toggle, enabled]
  simp [Gate.cnot, isClassical, Operation.isClassical]

@[simp] theorem act_toffoli (a b t : Nat) (s : State) :
    (Gate.toffoli a b t : Gate α).act s = s.toggle t (s a && s b) := by
  rw [act_eq_toggle, enabled]
  simp [Gate.toffoli, isClassical, Operation.isClassical]

theorem act_mcx (cs : List Nat) (t : Nat) (s : State) :
    (Gate.mcx cs t : Gate α).act s = s.toggle t (cs.all s) := rfl

@[simp] theorem act_phase (angle : α) (t : Nat) (s : State) : (Gate.phase angle t).act s = s := rfl

theorem act_of_ne (g : Gate α) (s : State) {q : Nat} (h : q ≠ g.target) : g.act s q = s q := by
  rw [act_eq_toggle, State.toggle_of_ne _ _ h]

theorem enabled_congr (g : Gate α) {s t : State} (h : ∀ c ∈ g.controls, s c = t c) :
    g.enabled s = g.enabled t := by
  unfold enabled
  generalize g.controls = cs at h
  induction cs with
  | nil => rfl
  | cons c cs ih =>
    rw [List.all_cons, List.all_cons, h c (by simp), ih (fun d hd => h d (by simp [hd]))]

theorem act_act (g : Gate α) (h : g.target ∉ g.controls) (s : State) : g.act (g.act s) = s := by
  have hen : g.enabled (g.act s) = g.enabled s :=
    g.enabled_congr fun c hc => g.act_of_ne s (fun heq => h (heq ▸ hc))
  rw [act_eq_toggle g (g.act s), hen, act_eq_toggle, State.toggle_toggle, Bool.xor_self,
    State.toggle_false]

end Gate

theorem runGates_cons (g : Gate α) (gs : List (Gate α)) (s : State) :
    runGates (g :: gs) s =
      ((runGates gs (g.act s)).1, (g.fired? s).toList ++ (runGates gs (g.act s)).2) := rfl

def after (gs : List (Gate α)) (s : State) : State := (runGates gs s).1

@[simp] theorem after_nil (s : State) : after ([] : List (Gate α)) s = s := rfl

@[simp] theorem after_cons (g : Gate α) (gs : List (Gate α)) (s : State) :
    after (g :: gs) s = after gs (g.act s) := rfl

@[simp] theorem after_append (gs hs : List (Gate α)) (s : State) :
    after (gs ++ hs) s = after hs (after gs s) := by
  simp [after, runGates_append]

theorem Netlist.run_fst (n : Netlist α) (s : State) : (n.run s).1 = after n.gates s := rfl

theorem after_of_not_target {gs : List (Gate α)} {q : Nat} (h : ∀ g ∈ gs, q ≠ g.target) (s : State) :
    after gs s q = s q := by
  induction gs generalizing s with
  | nil => rfl
  | cons g gs ih =>
    rw [after_cons, ih (fun g' hg' => h g' (by simp [hg'])), g.act_of_ne s (h g (by simp))]

theorem after_agree {gs : List (Gate α)} {m : Nat} (h : ∀ g ∈ gs, ∀ q ∈ g.qubits, q < m)
    {s t : State} (hst : ∀ q < m, s q = t q) : ∀ q < m, after gs s q = after gs t q := by
  induction gs generalizing s t with
  | nil => exact hst
  | cons g gs ih =>
    refine ih (fun g' hg' => h g' (by simp [hg'])) fun q hq => ?_
    have hen : g.enabled s = g.enabled t :=
      g.enabled_congr fun c hc => hst c (h g (by simp) c (List.mem_append_left _ hc))
    rw [Gate.act_eq_toggle, Gate.act_eq_toggle, hen, State.toggle_apply, State.toggle_apply, hst q hq]

theorem after_filter_classical (gs : List (Gate α)) (s : State) :
    after (gs.filter Gate.isClassical) s = after gs s := by
  induction gs generalizing s with
  | nil => rfl
  | cons g gs ih =>
    cases h : g.isClassical with
    | true => rw [List.filter_cons_of_pos h, after_cons, after_cons, ih]
    | false =>
      rw [List.filter_cons_of_neg (by simp [h]), after_cons, Gate.act_of_not_classical h, ih]

theorem after_injective {gs : List (Gate α)} (h : ∀ g ∈ gs, g.target ∉ g.controls) :
    Function.Injective (after gs) := by
  induction gs with
  | nil => exact fun s t hst => hst
  | cons g gs ih =>
    intro s t hst
    have hact : g.act s = g.act t := ih (fun g' hg' => h g' (by simp [hg'])) hst
    rw [← g.act_act (h g (by simp)) s, hact, g.act_act (h g (by simp)) t]

section Relabel

variable {f : Nat → Nat}

theorem Gate.relabel_congr {g : Gate α} {h : Nat → Nat} (hfh : ∀ q ∈ g.qubits, f q = h q) :
    g.relabel f = g.relabel h := by
  have hc : g.controls.map f = g.controls.map h :=
    List.map_congr_left fun q hq => hfh q (List.mem_append_left _ hq)
  have ht : f g.target = h g.target := hfh _ (by simp [Gate.qubits])
  simp [Gate.relabel, hc, ht]

theorem Gate.relabel_eq_self {g : Gate α} (h : ∀ q ∈ g.qubits, f q = q) : g.relabel f = g := by
  rw [Gate.relabel_congr (h := id) h, Gate.relabel, List.map_id]
  rfl

theorem Gate.enabled_relabel (g : Gate α) (s : State) :
    (g.relabel f).enabled s = g.enabled (fun i => s (f i)) := by
  simp only [Gate.enabled, Gate.relabel, List.all_map]
  rfl

theorem Gate.act_relabel (hf : Function.Injective f) (g : Gate α) (s : State) :
    (fun i => (g.relabel f).act s (f i)) = g.act (fun i => s (f i)) := by
  funext i
  rw [act_eq_toggle, act_eq_toggle, enabled_relabel, State.toggle_apply, State.toggle_apply]
  have htarget : (f i = (g.relabel f).target) = (i = g.target) := propext hf.eq_iff
  simp only [htarget]
  rfl

theorem after_relabel (hf : Function.Injective f) (gs : List (Gate α)) (s : State) :
    (fun i => after (gs.map (Gate.relabel f)) s (f i)) = after gs (fun i => s (f i)) := by
  induction gs generalizing s with
  | nil => rfl
  | cons g gs ih => rw [List.map_cons, after_cons, after_cons, ← g.act_relabel hf, ← ih]

theorem after_relabel_eq_self {gs : List (Gate α)} (hf : Function.Injective f)
    (h : ∀ s, after gs s = s) (s : State) : after (gs.map (Gate.relabel f)) s = s := by
  funext q
  by_cases hq : ∃ i, f i = q
  · obtain ⟨i, rfl⟩ := hq
    have hrun := congrFun (after_relabel hf gs s) i
    rw [h] at hrun
    exact hrun
  · apply after_of_not_target
    intro g hg heq
    obtain ⟨g, _, rfl⟩ := List.mem_map.mp hg
    exact hq ⟨g.target, heq.symm⟩

theorem after_relabel_toggle {gs : List (Gate α)} {t : Nat} {value : State → Bool}
    (hf : Function.Injective f) (h : ∀ s, after gs s = s.toggle t (value s)) (s : State) :
    after (gs.map (Gate.relabel f)) s = s.toggle (f t) (value fun i => s (f i)) := by
  funext q
  by_cases hq : ∃ i, f i = q
  · obtain ⟨i, rfl⟩ := hq
    have hrun := congrFun (after_relabel hf gs s) i
    rw [h, State.toggle_apply] at hrun
    rw [hrun, State.toggle_apply, decide_eq_decide.mpr hf.eq_iff]
  · have hne : ∀ i, q ≠ f i := fun i heq => hq ⟨i, heq.symm⟩
    rw [State.toggle_of_ne _ _ (hne t)]
    apply after_of_not_target
    intro g hg
    obtain ⟨g, _, rfl⟩ := List.mem_map.mp hg
    exact hne g.target

theorem exists_injective_extension {w : Nat} (h : ∀ i < w, ∀ j < w, f i = f j → i = j) :
    ∃ f' : Nat → Nat, Function.Injective f' ∧ ∀ i < w, f' i = f i := by
  obtain ⟨m, hm⟩ : ∃ m, ∀ i < w, f i < m := by
    clear h
    induction w with
    | zero => exact ⟨0, fun i hi => absurd hi (by omega)⟩
    | succ w ih =>
      obtain ⟨m, hm⟩ := ih
      refine ⟨max m (f w + 1), fun i hi => ?_⟩
      rcases Nat.lt_or_eq_of_le (Nat.le_of_lt_succ hi) with hlt | rfl
      · have := hm i hlt; omega
      · omega
  refine ⟨fun i => if i < w then f i else m + i, ?_, fun i hi => if_pos hi⟩
  intro i j hij
  by_cases hi : i < w <;> by_cases hj : j < w <;> simp only [hi, hj, if_true, if_false] at hij
  · exact h i hi j hj hij
  · have := hm i hi; omega
  · have := hm j hj; omega
  · omega

end Relabel

def Gate.reading? (g : Gate α) : Option (α × (State → Bool)) :=
  g.operation.angle?.map fun angle => (angle, fun s => g.enabled s && s g.target)

def readings : List (Gate α) → List (α × (State → Bool))
  | [] => []
  | g :: gs => g.reading?.toList ++ (readings gs).map fun r => (r.1, fun s => r.2 (g.act s))

@[simp] theorem Gate.reading?_phase (angle : α) (q : Nat) :
    (Gate.phase angle q).reading? = some (angle, fun s => s q) := by
  simp [Gate.reading?, Gate.phase, Gate.enabled, Operation.angle?]

@[simp] theorem Gate.reading?_cnot (c t : Nat) : (Gate.cnot c t : Gate α).reading? = none := rfl

theorem readings_append (gs hs : List (Gate α)) :
    readings (gs ++ hs) =
      readings gs ++ (readings hs).map fun r => (r.1, fun s => r.2 (after gs s)) := by
  induction gs with
  | nil => simp [readings]
  | cons g gs ih => simp [readings, ih, Function.comp_def]

theorem runGates_snd (gs : List (Gate α)) (s : State) :
    (runGates gs s).2 = (readings gs).filterMap fun r => if r.2 s then some r.1 else none := by
  induction gs generalizing s with
  | nil => rfl
  | cons g gs ih =>
    have hhead : (g.fired? s).toList =
        g.reading?.toList.filterMap fun r => if r.2 s then some r.1 else none := by
      obtain ⟨op, cs, t⟩ := g
      cases op with
      | x => rfl
      | h => rfl
      | p angle =>
        simp only [Gate.fired?, Gate.reading?, Operation.angle?, Option.map_some, Option.toList_some,
          List.filterMap_cons, List.filterMap_nil]
        split <;> simp_all
    simp only [runGates, readings, List.filterMap_append, List.filterMap_map, ih, hhead]
    rfl

theorem readings_relabel {f : Nat → Nat} (hf : Function.Injective f) (gs : List (Gate α)) :
    readings (gs.map (Gate.relabel f)) =
      (readings gs).map fun r => (r.1, fun s => r.2 (fun i => s (f i))) := by
  induction gs with
  | nil => rfl
  | cons g gs ih =>
    have hhead : (g.relabel f).reading?.toList =
        g.reading?.toList.map fun r => (r.1, fun s => r.2 (fun i => s (f i))) := by
      obtain ⟨op, cs, t⟩ := g
      cases op with
      | x => rfl
      | h => rfl
      | p angle =>
        have hen := fun s => (⟨.p angle, cs, t⟩ : Gate α).enabled_relabel (f := f) s
        simp only [Gate.reading?, Gate.relabel, Operation.angle?] at hen ⊢
        simp [hen]
    simp only [List.map_cons, readings, ih, hhead, List.map_append, List.map_map]
    congr 1
    apply List.map_congr_left
    intro r _
    simp only [Function.comp_apply, g.act_relabel hf]

theorem fired_relabel {f : Nat → Nat} (hf : Function.Injective f) (gs : List (Gate α))
    (s : State) :
    (runGates (gs.map (Gate.relabel f)) s).2 = (runGates gs fun i => s (f i)).2 := by
  rw [runGates_snd, runGates_snd, readings_relabel hf, List.filterMap_map]
  rfl

end ReversibleSynthesis
