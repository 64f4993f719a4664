import Mathlib.Logic.Relation
import ReversibleSynthesis.Proofs.Network

namespace ReversibleSynthesis

namespace Signal

theorem eq_or_eq_complement {a b : Signal} (h : a.node = b.node) : a = b ∨ a = b.complement := by
  obtain ⟨i, p⟩ := a
  obtain ⟨j, q⟩ := b
  cases h
  cases p <;> cases q <;> simp [complement]

theorem complement_ne (s : Signal) : s.complement ≠ s := fun h =>
  (Bool.not_not_eq.mpr rfl) (congrArg Signal.complemented h)

end Signal

namespace Network

section Signals

variable (n : Network) (x : Nat → Bool) (s : Signal)

@[simp] theorem eval_complement : n.eval x s.complement = !n.eval x s := by
  simp only [eval, Signal.value, Signal.complement]
  cases s.complemented <;> simp

theorem eval_complementIf (flip : Bool) : n.eval x (s.complementIf flip) = (n.eval x s ^^ flip) := by
  cases flip with
  | false => simp [Signal.complementIf]
  | true => simp [Signal.complementIf]

theorem eval_regular : n.eval x s.regular = (n.eval x s ^^ s.complemented) := by
  simp [eval, Signal.value, Signal.regular]

end Signals

theorem WellFormed.eval_const {n : Network} (h : n.WellFormed) (x : Nat → Bool) (b : Bool) :
    n.eval x (.const b) = b := by
  have hzero := h.values_eq x ((h.constant 0).mpr rfl)
  simp only [eval, Signal.value, Signal.const, hzero, Node.value, Bool.false_xor]

theorem WellFormed.eval_input {n : Network} (h : n.WellFormed) (x : Nat → Bool) {k i : Nat}
    (hk : n.inputs[k]? = some i) : n.eval x ⟨i, false⟩ = x k := by
  have hvalue := h.values_eq x ((h.inputs k i).mp hk)
  simp only [eval, Signal.value, hvalue, Node.value, Bool.xor_false]

theorem WellFormed.pos {n : Network} (h : n.WellFormed) : 0 < n.size :=
  lt_size_of_getElem? ((h.constant 0).mpr rfl)

theorem size_values (n : Network) (x : Nat → Bool) : (n.values x).size = n.size := by
  rw [values_eq_valuesOf, size_valuesOf, Array.length_toList, size]

theorem values_push (n : Network) (node : Node) (x : Nat → Bool) :
    (n.push node).values x = (n.values x).push (node.value x (n.values x)) := by
  rw [values_eq_valuesOf, values_eq_valuesOf, push, Array.toList_push, valuesOf_concat]

@[simp] theorem size_push (n : Network) (node : Node) : (n.push node).size = n.size + 1 := by
  simp [size, push]

theorem eval_push_of_lt (n : Network) (node : Node) (x : Nat → Bool) {s : Signal}
    (hs : s.node < n.size) : (n.push node).eval x s = n.eval x s := by
  have hne : s.node ≠ (n.values x).size := by
    rw [size_values]
    omega
  simp only [eval, Signal.value, values_push, Array.getD_eq_getD_getElem?, Array.getElem?_push,
    if_neg hne]

theorem eval_push_last (n : Network) (node : Node) (x : Nat → Bool) :
    (n.push node).eval x ⟨n.size, false⟩ = node.value x (n.values x) := by
  simp only [eval, Signal.value, values_push, Array.getD_eq_getD_getElem?, Array.getElem?_push,
    size_values, if_pos, Option.getD_some, Bool.xor_false]

def Grows : Network → Network → Prop := Relation.ReflTransGen Extends

section Grows

variable {n n' : Network}

theorem Extends.size_le (h : Extends n n') : n.size ≤ n'.size := by
  obtain rfl | ⟨node, _, _, rfl⟩ := h
  · exact Nat.le_refl _
  · exact (n.size_push node).symm ▸ Nat.le_succ n.size

theorem Extends.eval_eq (h : Extends n n') (x : Nat → Bool) {s : Signal} (hs : s.node < n.size) :
    n'.eval x s = n.eval x s := by
  obtain rfl | ⟨node, _, _, rfl⟩ := h
  · rfl
  · exact n.eval_push_of_lt node x hs

theorem Extends.interface_eq (h : Extends n n') :
    n'.inputs = n.inputs ∧ n'.inputNames = n.inputNames ∧ n'.outputs = n.outputs := by
  obtain rfl | ⟨node, _, _, rfl⟩ := h
  · exact ⟨rfl, rfl, rfl⟩
  · exact ⟨rfl, rfl, rfl⟩

theorem Grows.size_le (h : Grows n n') : n.size ≤ n'.size := by
  induction h with
  | refl => exact Nat.le_refl _
  | tail _ hstep ih => exact Nat.le_trans ih hstep.size_le

theorem Grows.eval_eq (h : Grows n n') (x : Nat → Bool) {s : Signal} (hs : s.node < n.size) :
    n'.eval x s = n.eval x s := by
  induction h with
  | refl => rfl
  | tail hprev hstep ih => rw [hstep.eval_eq x (Nat.lt_of_lt_of_le hs (Grows.size_le hprev)), ih]

theorem Grows.interface_eq (h : Grows n n') :
    n'.inputs = n.inputs ∧ n'.inputNames = n.inputNames ∧ n'.outputs = n.outputs := by
  induction h with
  | refl => exact ⟨rfl, rfl, rfl⟩
  | tail _ hstep ih =>
    obtain ⟨hinputs, hnames, houtputs⟩ := hstep.interface_eq
    exact ⟨hinputs.trans ih.1, hnames.trans ih.2.1, houtputs.trans ih.2.2⟩

theorem Grows.wellFormed (h : Grows n n') (hn : n.WellFormed) : n'.WellFormed := by
  induction h with
  | refl => exact hn
  | tail _ hstep ih => exact ih.extend hstep

end Grows

structure Yields (n : Network) (r : Signal × Network) (value : (Nat → Bool) → Bool) : Prop where
  grows : Extends n r.2
  exists_node : r.1.node < r.2.size
  eval_eq : ∀ x, r.2.eval x r.1 = value x

theorem Yields.of_eval_eq {n : Network} {s : Signal} {value : (Nat → Bool) → Bool}
    (hs : s.node < n.size) (h : ∀ x, n.eval x s = value x) : Yields n (s, n) value :=
  ⟨.inl rfl, hs, h⟩

theorem Yields.congr {n : Network} {r : Signal × Network} {value value' : (Nat → Bool) → Bool}
    (h : Yields n r value) (heq : ∀ x, value x = value' x) : Yields n r value' :=
  ⟨h.grows, h.exists_node, fun x => (h.eval_eq x).trans (heq x)⟩

theorem Yields.complementIf {n : Network} {r : Signal × Network} {value : (Nat → Bool) → Bool}
    (h : Yields n r value) (flip : Bool) :
    Yields n (r.1.complementIf flip, r.2) (fun x => value x ^^ flip) := by
  refine ⟨h.grows, ?_, fun x => by rw [eval_complementIf, h.eval_eq]⟩
  cases flip with
  | false => exact h.exists_node
  | true => exact h.exists_node

theorem share_yields {n : Network} (h : n.WellFormed) {node : Node} (hgate : node.isGate = true)
    (hfanins : ∀ s ∈ node.fanins, s.node < n.size) :
    Yields n (n.share node) (fun x => node.value x (n.values x)) := by
  refine ⟨share_extends hgate hfanins, ?_, ?_⟩
  · unfold share
    split
    · next hfind => exact lt_size_of_getElem? (h.table node _ hfind)
    · exact (n.size_push node).symm ▸ Nat.lt_succ_self n.size
  · intro x
    unfold share
    split
    · next hfind =>
      simp only [eval, Signal.value, Bool.xor_false, h.values_eq x (h.table node _ hfind)]
    · exact n.eval_push_last node x

theorem check_of_lt {n : Network} {s : Signal} (hs : s.node < n.size) : n.check s = .ok () :=
  if_pos hs

section Gates

variable {n : Network} {a b : Signal} (h : n.WellFormed) (ha : a.node < n.size) (hb : b.node < n.size)

include h ha hb

theorem andOrdered_yields :
    Yields n (n.andOrdered a b) (fun x => n.eval x a && n.eval x b) := by
  unfold andOrdered
  split
  · next heq =>
    subst heq
    exact .of_eval_eq ha fun x => (Bool.and_self _).symm
  · next hne =>
    split
    · next hnode =>
      have hcomp : b = a.complement :=
        (Signal.eq_or_eq_complement hnode.symm).resolve_left (Ne.symm hne)
      refine .of_eval_eq h.pos fun x => ?_
      rw [hcomp, h.eval_const, eval_complement, Bool.and_not_self]
    · split
      · next hzero =>
        have hconst : a = .const a.complemented := by
          rw [Signal.const, ← hzero]
        have hvalue : ∀ x, n.eval x a = a.complemented := by
          intro x
          rw [hconst, h.eval_const]
          rfl
        split
        · next hc => exact .of_eval_eq hb fun x => by rw [hvalue, hc, Bool.true_and]
        · next hc =>
          rw [Bool.not_eq_true] at hc
          exact .of_eval_eq ha fun x => by rw [hvalue, hc, Bool.false_and]
      · exact share_yields h rfl (by simp [Node.fanins, ha, hb])

theorem xorOrdered_yields (hdirect : a.complemented = false) :
    Yields n (n.xorOrdered a b) (fun x => n.eval x a ^^ n.eval x b) := by
  unfold xorOrdered
  split
  · next heq =>
    subst heq
    exact .of_eval_eq h.pos fun x => by rw [h.eval_const, Bool.xor_self]
  · split
    · next hzero =>
      have hconst : a = .const false := by
        obtain ⟨i, p⟩ := a
        cases hzero
        cases hdirect
        rfl
      exact .of_eval_eq hb fun x => by rw [hconst, h.eval_const, Bool.false_xor]
    · exact share_yields h rfl (by simp [Node.fanins, ha, hb])

theorem createAnd_yields : ∃ r, n.createAnd a b = .ok r ∧
    Yields n r (fun x => n.eval x a && n.eval x b) := by
  refine ⟨n.andOrdered (Signal.ordered a b).1 (Signal.ordered a b).2, ?_, ?_⟩
  · rw [createAnd, check_of_lt ha, check_of_lt hb]
    rfl
  · rcases Signal.ordered_cases a b with ho | ho <;> rw [ho]
    · exact andOrdered_yields h ha hb
    · exact (andOrdered_yields h hb ha).congr fun x => Bool.and_comm _ _

theorem createOr_yields : ∃ r, n.createOr a b = .ok r ∧
    Yields n r (fun x => n.eval x a || n.eval x b) := by
  obtain ⟨r, hr, hyields⟩ := createAnd_yields (a := a.complement) (b := b.complement) h ha hb
  refine ⟨(r.1.complementIf true, r.2), ?_, (hyields.complementIf true).congr fun x => ?_⟩
  · rw [createOr, hr]
    rfl
  · rw [eval_complement, eval_complement, Bool.xor_true, Bool.not_and, Bool.not_not, Bool.not_not]

theorem xorRegular_yields :
    Yields n (n.xorOrdered (Signal.ordered a.regular b.regular).1
      (Signal.ordered a.regular b.regular).2) (fun x => n.eval x a.regular ^^ n.eval x b.regular) := by
  rcases Signal.ordered_cases a.regular b.regular with ho | ho <;> rw [ho]
  · exact xorOrdered_yields (a := a.regular) (b := b.regular) h ha hb rfl
  · exact (xorOrdered_yields (a := b.regular) (b := a.regular) h hb ha rfl).congr
      fun x => Bool.xor_comm _ _

theorem createXor_yields : ∃ r, n.createXor a b = .ok r ∧
    Yields n r (fun x => n.eval x a ^^ n.eval x b) := by
  have hregular := (xorRegular_yields h ha hb).complementIf (a.complemented != b.complemented)
  refine ⟨_, ?_, hregular.congr fun x => ?_⟩
  · rw [createXor, check_of_lt ha, check_of_lt hb]
    rfl
  · rw [eval_regular, eval_regular]
    cases n.eval x a <;> cases n.eval x b <;> cases a.complemented <;> cases b.complemented <;> rfl

variable {c : Signal} (hc : c.node < n.size)

include hc

theorem majOrdered_yields :
    Yields n (n.majOrdered a b c) (fun x => (n.eval x a && n.eval x b) ||
      (n.eval x a && n.eval x c) || (n.eval x b && n.eval x c)) := by
  unfold majOrdered
  split
  · next heq =>
    subst heq
    refine .of_eval_eq ha fun x => ?_
    cases n.eval x a <;> simp
  · split
    · next heq =>
      subst heq
      refine .of_eval_eq hc fun x => ?_
      rw [eval_complement]
      cases n.eval x b <;> simp
    · split
      · next heq =>
        subst heq
        refine .of_eval_eq hb fun x => ?_
        cases n.eval x b <;> simp
      · split
        · next heq =>
          subst heq
          refine .of_eval_eq ha fun x => ?_
          rw [eval_complement]
          cases n.eval x c <;> simp
        · split
          · next hnode =>
            refine .of_eval_eq (by split <;> assumption) fun x => ?_
            rcases Signal.eq_or_eq_complement hnode with rfl | rfl
            · rw [if_pos rfl]
              cases n.eval x a <;> simp
            · rw [if_neg c.complement_ne, eval_complement]
              cases n.eval x c <;> simp
          · exact share_yields h rfl (by simp [Node.fanins, ha, hb, hc])

theorem createMaj_yields : ∃ r, n.createMaj a b c = .ok r ∧
    Yields n r (fun x => (n.eval x a && n.eval x b) || (n.eval x a && n.eval x c) ||
      (n.eval x b && n.eval x c)) := by
  refine ⟨n.majOrdered (Signal.ordered3 a b c).1 (Signal.ordered3 a b c).2.1
    (Signal.ordered3 a b c).2.2, ?_, ?_⟩
  · rw [createMaj, check_of_lt ha, check_of_lt hb, check_of_lt hc]
    rfl
  · have hcases := Signal.ordered3_cases a b c
    simp only [List.mem_cons, List.not_mem_nil, or_false] at hcases
    rcases hcases with ho | ho | ho | ho | ho | ho <;> rw [ho]
    · exact majOrdered_yields h ha hb hc
    all_goals
      refine (majOrdered_yields h (by assumption) (by assumption) (by assumption)).congr fun x => ?_
      cases n.eval x a <;> cases n.eval x b <;> cases n.eval x c <;> rfl

end Gates

end Network

end ReversibleSynthesis
