import ReversibleSynthesis.Network.Simulation
import ReversibleSynthesis.Proofs.Placement
import ReversibleSynthesis.Synthesis.Bennett

namespace ReversibleSynthesis.Bennett

variable {α : Type}

namespace Operand

def value (s : State) : Operand → Bool
  | .const value => value
  | .qubit q complemented => s q ^^ complemented

def qubits : Operand → List Nat
  | .const _ => []
  | .qubit q _ => [q]

theorem value_congr {o : Operand} {s t : State} (h : ∀ q ∈ o.qubits, s q = t q) :
    o.value s = o.value t := by
  cases o with
  | const value => rfl
  | qubit q complemented => rw [value, value, h q (by simp [qubits])]

theorem value_toggle {o : Operand} {t : Nat} (ht : t ∉ o.qubits) (s : State) (b : Bool) :
    o.value (s.toggle t b) = o.value s :=
  value_congr fun _ hq => s.toggle_of_ne b fun heq => ht (heq ▸ hq)

def Safe (size t : Nat) (o : Operand) : Prop := ∀ q ∈ o.qubits, q < size ∧ q ≠ t

theorem Safe.notMem {size t : Nat} {o : Operand} (h : o.Safe size t) : t ∉ o.qubits :=
  fun hq => (h t hq).2 rfl

end Operand

theorem after_notIf (c : Bool) (q : Nat) (s : State) :
    after (notIf c q : List (Gate α)) s = s.toggle q c := by
  cases c with
  | false => rfl
  | true => rfl

theorem after_copies {operands : List Operand} {t : Nat} (h : ∀ o ∈ operands, t ∉ o.qubits)
    (s : State) (b : Bool) :
    after (operands.flatMap (Operand.copies t) : List (Gate α)) (s.toggle t b) =
      s.toggle t (operands.foldl (fun c o => c ^^ (o.value s ^^ o.inverts)) b) := by
  induction operands generalizing b with
  | nil => rfl
  | cons o operands ih =>
    have hhead : after (Operand.copies t o : List (Gate α)) (s.toggle t b) =
        s.toggle t (b ^^ (o.value s ^^ o.inverts)) := by
      cases o with
      | const value => simp [Operand.copies, Operand.value, Operand.inverts]
      | qubit q complemented =>
        have hq : q ≠ t := fun heq => h _ List.mem_cons_self (by simp [Operand.qubits, heq])
        simp [Operand.copies, Operand.value, Operand.inverts, s.toggle_of_ne b hq,
          State.toggle_toggle]
    rw [List.flatMap_cons, after_append, hhead, ih fun o' ho' => h o' (List.mem_cons_of_mem _ ho')]
    rfl

theorem foldl_xor_xor (f g : Operand → Bool) (operands : List Operand) (b c : Bool) :
    (operands.foldl (fun acc o => acc ^^ (f o ^^ g o)) b ^^ operands.foldl (fun acc o => acc ^^ g o) c) =
      operands.foldl (fun acc o => acc ^^ f o) (b ^^ c) := by
  induction operands generalizing b c with
  | nil => rfl
  | cons o operands ih =>
    rw [List.foldl_cons, List.foldl_cons, List.foldl_cons, ih]
    congr 1
    cases b <;> cases c <;> cases f o <;> cases g o <;> rfl

theorem after_toggleXor {operands : List Operand} {t : Nat} (h : ∀ o ∈ operands, t ∉ o.qubits)
    (s : State) :
    after (toggleXor operands t : List (Gate α)) s =
      s.toggle t (operands.foldl (fun c o => c ^^ o.value s) false) := by
  have hcopies := after_copies (α := α) h s false
  rw [State.toggle_false] at hcopies
  rw [toggleXor, after_append, hcopies, after_notIf, State.toggle_toggle, foldl_xor_xor,
    Bool.xor_false]

theorem after_toggleXor_singleton {o : Operand} {t : Nat} (h : t ∉ o.qubits) (s : State) :
    after (toggleXor [o] t : List (Gate α)) s = s.toggle t (o.value s) := by
  rw [after_toggleXor (by simpa using h)]
  simp

theorem after_toggleAnd {a b : Operand} {t : Nat} (ha : t ∉ a.qubits) (hb : t ∉ b.qubits)
    (s : State) :
    after (toggleAnd a b t : List (Gate α)) s = s.toggle t (a.value s && b.value s) := by
  cases a with
  | const va =>
    cases va with
    | false => simp [toggleAnd, Operand.value]
    | true =>
      cases b with
      | const vb =>
        cases vb with
        | false => simp [toggleAnd, Operand.value]
        | true => simp [toggleAnd, after_toggleXor_singleton hb, Operand.value]
      | qubit qb cb => simp [toggleAnd, after_toggleXor_singleton hb, Operand.value]
  | qubit qa ca =>
    cases b with
    | const vb =>
      cases vb with
      | false => simp [toggleAnd, Operand.value]
      | true => simp [toggleAnd, after_toggleXor_singleton ha, Operand.value]
    | qubit qb cb =>
      have hqa : t ≠ qa := by simpa [Operand.qubits] using ha
      have hqb : t ≠ qb := by simpa [Operand.qubits] using hb
      by_cases hq : qa = qb
      · subst hq
        by_cases hc : ca = cb
        · subst hc
          simp [toggleAnd, after_toggleXor_singleton ha, Operand.value]
        · have hzero : ((s qa ^^ ca) && (s qa ^^ cb)) = false := by
            cases s qa <;> cases ca <;> cases cb <;> simp_all
          simp [toggleAnd, hc, Operand.value, hzero]
      · -- the conjugating negations commute with the toggle of the target and cancel
        have hread : ((s.toggle qa ca).toggle qb cb) qa = (s qa ^^ ca) ∧
            ((s.toggle qa ca).toggle qb cb) qb = (s qb ^^ cb) := by
          rw [State.toggle_of_ne _ _ hq, State.toggle_self, State.toggle_self,
            State.toggle_of_ne _ _ (Ne.symm hq)]
          exact ⟨rfl, rfl⟩
        simp only [toggleAnd, if_neg hq, after_append, after_notIf, after_cons, after_nil,
          Gate.act_toffoli, hread.1, hread.2, Operand.value]
        generalize ((s qa ^^ ca) && (s qb ^^ cb)) = v
        rw [State.toggle_comm _ t qa, State.toggle_comm _ qb qa, State.toggle_toggle, Bool.xor_self,
          State.toggle_false, State.toggle_comm _ t qb, State.toggle_toggle, Bool.xor_self,
          State.toggle_false]

theorem fits_notIf {size q : Nat} (hq : q < size) (c : Bool) :
    ∀ g ∈ (notIf c q : List (Gate α)), g.Fits size := by
  unfold notIf
  split
  · simpa using Gate.fits_not hq
  · simp

theorem fits_toggleXor {size t : Nat} {operands : List Operand} (ht : t < size)
    (h : ∀ o ∈ operands, o.Safe size t) :
    ∀ g ∈ (toggleXor operands t : List (Gate α)), g.Fits size := by
  intro g hg
  rcases List.mem_append.mp hg with hg | hg
  · obtain ⟨o, ho, hg⟩ := List.mem_flatMap.mp hg
    cases o with
    | const value => cases hg
    | qubit q complemented =>
      obtain ⟨hq, hne⟩ := h _ ho q (by simp [Operand.qubits])
      rw [List.mem_singleton.mp hg]
      exact Gate.fits_cnot hq ht hne
  · exact fits_notIf ht _ g hg

theorem fits_toggleAnd {size t : Nat} {a b : Operand} (ht : t < size) (ha : a.Safe size t)
    (hb : b.Safe size t) : ∀ g ∈ (toggleAnd a b t : List (Gate α)), g.Fits size := by
  have hone : ∀ o : Operand, o.Safe size t → ∀ g ∈ (toggleXor [o] t : List (Gate α)), g.Fits size :=
    fun o ho => fits_toggleXor ht (by simpa using ho)
  unfold toggleAnd
  split
  · simp
  · simp
  · exact hone _ hb
  · exact hone _ ha
  · next qa ca qb cb =>
    obtain ⟨hqa, hta⟩ := ha qa (by simp [Operand.qubits])
    obtain ⟨hqb, htb⟩ := hb qb (by simp [Operand.qubits])
    split
    · split
      · exact hone _ ha
      · simp
    · next hq =>
      have htoffoli : (Gate.toffoli qa qb t : Gate α).Fits size :=
        Gate.fits_mcx (by simp [hqa, hqb]) (by simp [hq]) ht (by simp [hta.symm, htb.symm])
      simp only [List.forall_mem_append, List.forall_mem_singleton]
      exact ⟨⟨⟨⟨fits_notIf hqa ca, fits_notIf hqb cb⟩, htoffoli⟩, fits_notIf hqa ca⟩,
        fits_notIf hqb cb⟩

section Blocks

variable {qubits : List (Nat × Nat)}

def gateValue (qubits : List (Nat × Nat)) (s : State) : Node → Bool
  | .constant => false
  | .input _ => false
  | .and a b => (operand qubits a).value s && (operand qubits b).value s
  | .xor a b => (operand qubits a).value s ^^ (operand qubits b).value s
  | .maj a b c =>
      ((operand qubits a).value s && (operand qubits b).value s) ^^
        ((operand qubits a).value s && (operand qubits c).value s) ^^
        ((operand qubits b).value s && (operand qubits c).value s)

theorem gateValue_congr {s s' : State} {node : Node}
    (h : ∀ f ∈ node.fanins, (operand qubits f).value s = (operand qubits f).value s') :
    gateValue qubits s node = gateValue qubits s' node := by
  cases node with
  | constant => rfl
  | input k => rfl
  | and a b => simp only [gateValue, h a (by simp [Node.fanins]), h b (by simp [Node.fanins])]
  | xor a b => simp only [gateValue, h a (by simp [Node.fanins]), h b (by simp [Node.fanins])]
  | maj a b c =>
    simp only [gateValue, h a (by simp [Node.fanins]), h b (by simp [Node.fanins]),
      h c (by simp [Node.fanins])]

theorem gateValue_eq_value {s : State} {node : Node} {values : Array Bool}
    (hgate : node.isGate = true)
    (h : ∀ f ∈ node.fanins, (operand qubits f).value s = f.value values) (inputs : Nat → Bool) :
    gateValue qubits s node = node.value inputs values := by
  cases node with
  | constant => cases hgate
  | input k => cases hgate
  | and a b =>
    simp only [gateValue, Node.value, h a (by simp [Node.fanins]), h b (by simp [Node.fanins])]
  | xor a b =>
    simp only [gateValue, Node.value, h a (by simp [Node.fanins]), h b (by simp [Node.fanins])]
  | maj a b c =>
    simp only [gateValue, Node.value, h a (by simp [Node.fanins]), h b (by simp [Node.fanins]),
      h c (by simp [Node.fanins])]
    cases a.value values <;> cases b.value values <;> cases c.value values <;> rfl

theorem after_compute {node : Node} {t : Nat}
    (h : ∀ f ∈ node.fanins, t ∉ (operand qubits f).qubits) (s : State) :
    after (compute qubits t node : List (Gate α)) s = s.toggle t (gateValue qubits s node) := by
  cases node with
  | constant => rfl
  | input k => rfl
  | and a b => exact after_toggleAnd (h a (by simp [Node.fanins])) (h b (by simp [Node.fanins])) s
  | xor a b =>
    rw [compute, after_toggleXor (by simpa [Node.fanins] using h)]
    simp [gateValue]
  | maj a b c =>
    have ha := h a (by simp [Node.fanins])
    have hb := h b (by simp [Node.fanins])
    have hc := h c (by simp [Node.fanins])
    simp only [compute, after_append, after_toggleAnd ha hb, after_toggleAnd ha hc,
      after_toggleAnd hb hc, Operand.value_toggle ha, Operand.value_toggle hb,
      Operand.value_toggle hc, State.toggle_toggle, gateValue]

theorem after_compute_twice {node : Node} {t : Nat}
    (h : ∀ f ∈ node.fanins, t ∉ (operand qubits f).qubits) (s : State) :
    after (compute qubits t node : List (Gate α)) (after (compute qubits t node : List (Gate α)) s) =
      s := by
  rw [after_compute h, after_compute h,
    gateValue_congr fun f hf => Operand.value_toggle (h f hf) s _, State.toggle_toggle,
    Bool.xor_self, State.toggle_false]

theorem fits_compute {node : Node} {size t : Nat} (ht : t < size)
    (h : ∀ f ∈ node.fanins, (operand qubits f).Safe size t) :
    ∀ g ∈ (compute qubits t node : List (Gate α)), g.Fits size := by
  cases node with
  | constant => simp [compute]
  | input k => simp [compute]
  | and a b => exact fits_toggleAnd ht (h a (by simp [Node.fanins])) (h b (by simp [Node.fanins]))
  | xor a b => exact fits_toggleXor ht (by simpa [Node.fanins] using h)
  | maj a b c =>
    have ha := h a (by simp [Node.fanins])
    have hb := h b (by simp [Node.fanins])
    have hc := h c (by simp [Node.fanins])
    simp only [compute, List.forall_mem_append]
    exact ⟨⟨fits_toggleAnd ht ha hb, fits_toggleAnd ht ha hc⟩, fits_toggleAnd ht hb hc⟩

theorem after_blocks_reverse {blocks : List (List (Gate α))}
    (h : ∀ block ∈ blocks, ∀ s, after block (after block s) = s) (s : State) :
    after blocks.reverse.flatten (after blocks.flatten s) = s := by
  induction blocks generalizing s with
  | nil => rfl
  | cons block blocks ih =>
    rw [List.flatten_cons, List.reverse_cons, List.flatten_append, List.flatten_singleton,
      after_append, after_append, ih fun b hb => h b (List.mem_cons_of_mem _ hb),
      h block List.mem_cons_self]

end Blocks

end ReversibleSynthesis.Bennett
